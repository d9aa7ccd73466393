/-
  TableMigrations.CommandLine.Command — the commands: apply migrations, tell their status, show what a file plans.

  A command reads the tree of files and may change it; what it prints and its exit code are values.
-/
import TableMigrations.CommandLine.Arguments
import TableMigrations.CommandLine.Report
import TableMigrations.Settings

namespace TableMigrations

structure Output where
  code : Nat
  stdout : String
  stderr : String
  deriving DecidableEq, Repr

namespace Command

def success (stdout : String) : Output := ⟨0, stdout, ""⟩

def failure (stdout message : String) : Output := ⟨1, stdout, s!"error: {message}\n"⟩

def settings (t : FileTree) (target : TargetArguments) : Except ConfigError Settings :=
  (FileConfig.load t target.config).map (·.resolve ⟨target.db, target.dir⟩)

/-- The stores of a command: the ledger is in the database with the tables. -/
def storesOf (d : Database) : Stores Database MemoryStore := .shared d

def withDatabase (t : FileTree) (target : TargetArguments) (work : Settings → Database → Output × Database) :
    Output × FileTree :=
  match settings t target with
  | .error e => (failure "" e.message, t)
  | .ok s =>
    match Database.openAt t s.database .wal with
    | .error (e, t) => (failure "" e.message, t)
    | .ok d =>
      let (output, d) := work s d
      (output, SqliteStore.close d)

/-! ## up -/

/-- Applies what is to be applied; what was done before a failure stays done. -/
def upWith (s : Settings) (d : Database) : Output × Database :=
  match (Database.tree d).migrations s.options with
  | .error e => (failure "" e.message, d)
  | .ok migrations =>
    let course := run (fun d path => (Database.tree d).readText path) .calm s.options migrations (storesOf d)
    match course.outcome with
    | some (.ok summary) => (success (Report.summary summary), course.stores.data)
    | some (.error e) => (failure "" e.message, course.stores.data)
    | none => (failure "" "migration run did not end", course.stores.data)

/-! ## status -/

def aboutDatabase : SqliteStore.Work Files.engine (Nat × String) := do
  let size ← SqliteStore.fileSize
  let journal ← SqliteStore.journalMode
  return (size, journal)

def statusWith (s : Settings) (d : Database) : Output × Database :=
  match d.on aboutDatabase with
  | (.error e, d) => (failure "" e.message, d)
  | (.ok (size, journal), d) =>
    let head := Report.statusHead s.database s.options.directory journal size
    match (Database.tree d).migrations s.options with
    | .error e => (failure head e.message, d)
    | .ok migrations =>
      let course := TableMigrations.status .calm s.options migrations (storesOf d)
      let d := course.stores.data
      match course.outcome with
      | none => (failure head "status did not end", d)
      | some (.error e) => (failure head e.message, d)
      | some (.ok []) => (success (head ++ Report.unlines ["  (no migrations found)"]), d)
      | some (.ok found) =>
        let table := s.options.historyTable
        match d.on (SqliteStore.rowCount table) with
        | (.error e, d) => (failure (head ++ Report.statusTable found) e.message, d)
        | (.ok records, d) => (success (head ++ Report.statusTable found ++ Report.statusFoot table records found), d)

/-! ## plan -/

def plan (t : FileTree) (file : String) (json : Bool) : Output :=
  match t.readText file with
  | .error e => failure "" e.message
  | .ok text =>
    match parseMigration text with
    | .error (n, e) => failure "" s!"{file}:{n}: {e.message}"
    | .ok ops => success (if json then Report.planJson ops else Report.plan file ops)

end Command

/-! ## invocations -/

namespace Invocation

def versionText : String := "tabula 0.2.0\n"

def usageText : String := "Usage: tabula <COMMAND>\n\nCommands:\n  up\n  status\n  plan\n  help\n"

def perform (t : FileTree) : Invocation → Output × FileTree
  | .up target => Command.withDatabase t target Command.upWith
  | .status target => Command.withDatabase t target Command.statusWith
  | .plan file json => (Command.plan t file json, t)
  | .version => (Command.success versionText, t)
  | .help => (Command.success usageText, t)
  | .usageError => (⟨2, "", usageText⟩, t)

def firstPaths : Invocation → List String
  | .up target | .status target => [target.config.getD FileConfig.defaultPath]
  | .plan file _ => [file]
  | _ => []

def furtherPaths (t : FileTree) : Invocation → List String
  | .up target | .status target =>
    match Command.settings t target with
    | .ok s => s.options.directory :: ((Address.read? s.database).map (·.path)).toList
    | .error _ => []
  | _ => []

end Invocation

end TableMigrations
