/-
  TableMigrations.CommandLine.Arguments — what the arguments of a command line ask for.

  Arguments are read from left to right and the first that is out of place is a usage error. An option's value is
  the rest of its argument, after an equals sign if there is one, or else the next argument, which may not look like
  an option. Options are given at most once and values are not empty.
-/

namespace TableMigrations

structure TargetArguments where
  config : Option String
  db : Option String
  dir : Option String
  deriving DecidableEq, Repr

structure PlanArguments where
  file : Option String
  json : Bool
  deriving DecidableEq, Repr

inductive Invocation where
  | up (target : TargetArguments)
  | status (target : TargetArguments)
  | plan (file : String) (json : Bool)
  | version
  | help
  | usageError
  deriving DecidableEq, Repr

namespace Invocation

def isOptionLike (arg : String) : Bool := arg.startsWith "-" && arg != "-"

def splitLong (arg : String) : String × Option String :=
  let body := arg.toList.drop 2
  match body.dropWhile (· != '=') with
  | [] => (.ofList body, none)
  | _ :: value => (.ofList (body.takeWhile (· != '=')), some (.ofList value))

/-! ## the database commands -/

inductive TargetOption where
  | config
  | db
  | dir
  deriving DecidableEq, Repr

namespace TargetOption

def ofLong? : String → Option TargetOption
  | "config" => some .config
  | "db" => some .db
  | "dir" => some .dir
  | _ => none

def ofShort? : Char → Option TargetOption
  | 'c' => some .config
  | 'd' => some .dir
  | _ => none

/-- Takes a value for the option; none if it is empty or there is one already. -/
def set (o : TargetOption) (value : String) (t : TargetArguments) : Option TargetArguments :=
  if value = "" then none
  else match o with
    | .config => if t.config.isNone then some { t with config := some value } else none
    | .db => if t.db.isNone then some { t with db := some value } else none
    | .dir => if t.dir.isNone then some { t with dir := some value } else none

end TargetOption

def readTarget (make : TargetArguments → Invocation) (t : TargetArguments) : List String → Invocation
  | [] => make t
  | ["--"] => make t
  | arg :: rest =>
    if arg = "--" then .usageError
    else if arg.startsWith "--" then
      let (name, value) := splitLong arg
      if name = "help" then (if value.isNone then .help else .usageError)
      else match TargetOption.ofLong? name, value, rest with
        | some o, some value, rest => (o.set value t).elim .usageError (readTarget make · rest)
        | some o, none, value :: rest =>
          if isOptionLike value then .usageError else (o.set value t).elim .usageError (readTarget make · rest)
        | _, _, _ => .usageError
    else match arg.toList with
      | '-' :: 'h' :: _ => .help
      | '-' :: c :: attached =>
        match TargetOption.ofShort? c, attached, rest with
        | some o, [], value :: rest =>
          if isOptionLike value then .usageError else (o.set value t).elim .usageError (readTarget make · rest)
        | some o, '=' :: value, rest => (o.set (.ofList value) t).elim .usageError (readTarget make · rest)
        | some o, c :: value, rest => (o.set (.ofList (c :: value)) t).elim .usageError (readTarget make · rest)
        | _, _, _ => .usageError
      | _ => .usageError

/-! ## plan -/

def addFile (p : PlanArguments) (file : String) : Option PlanArguments :=
  if p.file.isNone && file != "" then some { p with file := some file } else none

def addFiles (p : PlanArguments) (files : List String) : Option PlanArguments := files.foldlM addFile p

def finishPlan (p : PlanArguments) : Invocation := p.file.elim .usageError (.plan · p.json)

def readPlan (p : PlanArguments) : List String → Invocation
  | [] => finishPlan p
  | arg :: rest =>
    if arg = "--" then (addFiles p rest).elim .usageError finishPlan
    else if arg = "--json" then (if p.json then .usageError else readPlan { p with json := true } rest)
    else if arg = "--help" then .help
    else if isOptionLike arg then (if arg.startsWith "-h" then .help else .usageError)
    else (addFile p arg).elim .usageError (readPlan · rest)

/-! ## commands -/

def commandNames : List String := ["up", "status", "plan", "help"]

def ofArguments : List String → Invocation
  | [] => .usageError
  | command :: rest =>
    match command with
    | "up" => readTarget .up ⟨none, none, none⟩ rest
    | "status" => readTarget .status ⟨none, none, none⟩ rest
    | "plan" => readPlan ⟨none, false⟩ rest
    | "help" =>
      match rest with
      | [] => .help
      | [name] => if commandNames.contains name then .help else .usageError
      | _ => .usageError
    | "--version" => .version
    | "--help" => .help
    | command =>
      if command.startsWith "-V" then .version
      else if command.startsWith "-h" then .help
      else .usageError

end Invocation

end TableMigrations
