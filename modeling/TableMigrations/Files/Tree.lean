/-
  TableMigrations.Files.Tree — a tree of files, as far as a run can see it.

  Every file, directory and symbolic link is listed under its location, the names that lead to it from the root.
  A path is followed name by name from the working directory, or from the root if it starts with a slash.

  A file is known by its number, and stays when its name is taken away: who has it open goes on with it.
-/
import TableMigrations.Files.Content
import TableMigrations.Files.Error

namespace TableMigrations

/-- The names that lead from the root to a place in the tree. -/
abbrev Location := List String

inductive Node where
  /-- A file, by its number. -/
  | file (number : Nat)
  | directory
  | link (target : String)
  deriving DecidableEq, Repr

structure FileTree where
  nodes : SortedMap Location Node
  /-- What the files hold, by their numbers. -/
  contents : Array Content
  /-- Where relative paths start. -/
  here : Location
  deriving DecidableEq

namespace FileTree

def bare (here : Location) : FileTree :=
  ⟨.ofList ((List.range here.length).map fun n => (here.take (n + 1), .directory)), #[], here⟩

def node? (t : FileTree) (l : Location) : Option Node := if l = [] then some .directory else t.nodes.get? l

def content (t : FileTree) (file : Nat) : Content := t.contents.getD file .empty

def contentAt? (t : FileTree) (l : Location) : Option Content :=
  match t.node? l with
  | some (.file n) => some (t.content n)
  | _ => none

/-! ## paths -/

def isAbsolute (path : String) : Bool := path.startsWith "/"

def names (path : String) : List String := (path.toList.splitOn '/').map .ofList

def startOf (t : FileTree) (path : String) : Location := if isAbsolute path then [] else t.here

def maxNameSize : Nat := 255

def maxPathSize : Nat := 4095

def maxLinks : Nat := 40

inductive Ending where
  /-- Anything; a link is not followed. -/
  | itself
  /-- Anything but a link, which is followed. -/
  | target
  /-- Links are followed, and nothing has to be there yet. -/
  | place
  deriving DecidableEq, Repr

/-- Follows names from a directory. Links on the way are followed, at most `links` of them. -/
def walk (t : FileTree) (ending : Ending) (links : Nat) (here : Location) : List String → Except FileError Location
  | [] => .ok here
  | name :: rest =>
    if name = "" ∨ name = "." then walk t ending links here rest
    else if name = ".." then walk t ending links here.dropLast rest
    else if maxNameSize < name.utf8ByteSize then .error .nameTooLong
    else match t.node? (here ++ [name]) with
      | none => if rest = [] ∧ ending = .place then .ok (here ++ [name]) else .error .notFound
      | some .directory => walk t ending links (here ++ [name]) rest
      | some (.file _) => if rest = [] then .ok (here ++ [name]) else .error .notADirectory
      | some (.link target) =>
        if rest = [] ∧ ending = .itself then .ok (here ++ [name])
        else match links with
          | 0 => .error .tooManyLinks
          | links + 1 => walk t ending links (if isAbsolute target then [] else here) (names target ++ rest)
  termination_by l => (links, l.length)

def resolve (t : FileTree) (ending : Ending) (path : String) : Except FileError Location :=
  if path = "" then .error .notFound
  else if path.contains '\x00' then .error .nulInName
  else if maxPathSize < path.utf8ByteSize then .error .nameTooLong
  else t.walk ending maxLinks (t.startOf path) (names path)

/-! ## reading -/

def find (t : FileTree) (path : String) : Except FileError Content :=
  match t.resolve .target path with
  | .error e => .error e
  | .ok l =>
    match t.node? l with
    | some (.file n) => .ok (t.content n)
    | some .directory => .error .isADirectory
    | _ => .error .notFound

def readText (t : FileTree) (path : String) : Except FileError String :=
  match t.find path with
  | .error e => .error e
  | .ok content =>
    match String.fromUTF8? content.toBytes with
    | some text => .ok text
    | none => .error .notUtf8

def isFile (t : FileTree) (path : String) : Bool := (t.find path).isOk

def entryIn (l : Location) (e : Location × Node) : Option (String × Node) :=
  match e.1.getLast? with
  | some name => if e.1 = l ++ [name] then some (name, e.2) else none
  | none => none

/-- The names in a directory with what they name; a link is told as such. -/
def list (t : FileTree) (path : String) : Except FileError (List (String × Node)) :=
  match t.resolve .target path with
  | .error e => .error e
  | .ok l =>
    match t.node? l with
    | some .directory => .ok (t.nodes.entries.filterMap (entryIn l))
    | _ => .error .notADirectory

/-! ## changing -/

def setNode (t : FileTree) (l : Location) (n : Node) : FileTree := { t with nodes := t.nodes.insert l n }

def setContent (t : FileTree) (file : Nat) (c : Content) : FileTree :=
  { t with contents := t.contents.setIfInBounds file c }

def addFile (t : FileTree) (l : Location) (c : Content) : FileTree :=
  { t with nodes := t.nodes.insert l (.file t.contents.size), contents := t.contents.push c }

def clear (t : FileTree) (l : Location) : FileTree := { t with nodes := t.nodes.filterKeys (!l.isPrefixOf ·) }

/-- Goes along names from a directory, and makes the directories that are not there. -/
def makeWay (t : FileTree) (here : Location) : List String → FileTree × Location
  | [] => (t, here)
  | name :: rest =>
    if name = "" ∨ name = "." then makeWay t here rest
    else if name = ".." then makeWay t here.dropLast rest
    else match t.walk .target maxLinks here [name] with
      | .ok l => makeWay t l rest
      | .error _ => makeWay (t.setNode (here ++ [name]) .directory) (here ++ [name]) rest

def makeWayTo (t : FileTree) (path : String) : FileTree × Location × List String :=
  let (t, parent) := t.makeWay (t.startOf path) (names path).dropLast
  (t, parent, (names path).getLast?.toList)

def makeDirectory (t : FileTree) (path : String) : FileTree :=
  let (t, parent, last) := t.makeWayTo path
  (t.makeWay parent last).1

def makeLink (t : FileTree) (path target : String) : FileTree :=
  let (t, parent, last) := t.makeWayTo path
  t.setNode (parent ++ last) (.link target)

/-- Gives a file its content where the links at the path lead. A file that is there stays the same one; a new one is
    made with the directories that lead to it. -/
def write (t : FileTree) (path : String) (c : Content) : FileTree :=
  let (t, parent, last) := t.makeWayTo path
  match t.walk .place maxLinks parent last with
  | .ok l =>
    match t.node? l with
    | some (.file n) => t.setContent n c
    | _ => t.addFile l c
  | .error _ => t

def remove (t : FileTree) (path : String) : FileTree :=
  match t.resolve .itself path with
  | .ok l => t.clear l
  | .error _ => t

/-! ## differences -/

inductive Change where
  | write (bytes : ByteArray)
  | makeDirectory
  | remove
  deriving DecidableEq

def changes (before after : FileTree) : List (Location × Change) :=
  (after.nodes.entries.filterMap fun (l, n) =>
    match n with
    | .file n =>
      let bytes := (after.content n).toBytes
      if (before.contentAt? l).map (·.toBytes) = some bytes then none else some (l, .write bytes)
    | .directory => if before.nodes.contains l then none else some (l, .makeDirectory)
    | .link _ => none) ++
    before.nodes.entries.filterMap fun (l, _) => if after.nodes.contains l then none else some (l, .remove)

end FileTree

end TableMigrations
