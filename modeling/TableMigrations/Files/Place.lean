/-
  TableMigrations.Files.Place — where the file of a database is, and the files beside it.
-/
import TableMigrations.Files.Address
import TableMigrations.Files.Tree

namespace TableMigrations

namespace Place

def pathSize (l : Location) : Nat := l.foldr (·.utf8ByteSize + 1 + ·) 0

/-- A path of a database grows to less than this on the way to its file, in bytes. -/
def maxPathSize : Nat := 512

/-- The same for a database whose bytes are kept in memory, under a path that is never followed. -/
def maxMemoryPathSize : Nat := 1024

def sideNameSize : Nat := "-journal".utf8ByteSize

def maxLinks : Nat := 201

/-- Goes along names that need not be there: two points take off the name before them. Each link that is met is
    followed at once, at most `links` of them. -/
def locate (t : FileTree) (links : Nat) (here : Location) : List String → Option Location
  | [] => some here
  | name :: rest =>
    if name = "" ∨ name = "." then locate t links here rest
    else if name = ".." then locate t links here.dropLast rest
    else if maxPathSize ≤ pathSize (here ++ [name]) then none
    else match t.walk .itself FileTree.maxLinks [] (here ++ [name]), t.node? (here ++ [name]) with
      | .ok _, some (.link target) =>
        match links with
        | 0 => none
        | links + 1 => locate t links (if FileTree.isAbsolute target then [] else here) (FileTree.names target ++ rest)
      | .ok _, _ | .error .notFound, _ => locate t links (here ++ [name]) rest
      | .error _, _ => none
  termination_by l => (links, l.length)

def ofPath (t : FileTree) (path : String) : Option Location := do
  let l ← locate t maxLinks (t.startOf path) (FileTree.names path)
  if l = [] ∨ maxPathSize < pathSize l + sideNameSize then none else (t.walk .place 0 [] l).toOption

/-! ## beside the file -/

def beside (l : Location) (ending : String) : Location := l.dropLast ++ [l.getLast?.getD "" ++ ending]

def log (l : Location) : Location := beside l "-wal"

def index (l : Location) : Location := beside l "-shm"

def journal (l : Location) : Location := beside l "-journal"

def lock (l : Location) : Location := beside l ".lock"

end Place

namespace FileTree

def stands (t : FileTree) (l : Location) : Bool := (t.walk .target maxLinks [] l).isOk

/-- Whether there is something at a location that may have something to say: an empty file has not. -/
def speaks (t : FileTree) (l : Location) : Bool :=
  match t.walk .target maxLinks [] l with
  | .ok l => (t.contentAt? l).all (!·.isEmpty)
  | .error _ => false

/-- Takes a name away, unless it is that of a directory. -/
def unlink (t : FileTree) (l : Location) : FileTree :=
  match t.node? l with
  | some .directory | none => t
  | some (.file _) | some (.link _) => t.clear l

/-- The number of the file at a location, which is made if there is none. A link is not followed. -/
def openOrMake (t : FileTree) (l : Location) (c : Content) : Option (FileTree × Nat) :=
  match t.node? l with
  | some (.file n) => some (t, n)
  | none => if l.any (maxNameSize < ·.utf8ByteSize) then none else some (t.addFile l c, t.contents.size)
  | some .directory | some (.link _) => none

end FileTree

end TableMigrations
