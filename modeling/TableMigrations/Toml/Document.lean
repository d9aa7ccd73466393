/-
  TableMigrations.Toml.Document — TOML documents as tables of tables, and how a document's lines build them.

  A table remembers how it came about, since that decides what may still be added to it: a header opens a table
  that was at most implied before, dotted keys extend only what dotted keys made, and an inline table is closed.
-/
import TableMigrations.Number.Binary64

namespace TableMigrations

namespace Toml

inductive Form where
  /-- By a header of its own; so is the root. -/
  | header
  /-- On the way to another table's header. -/
  | implied
  /-- By dotted keys. -/
  | dotted
  | inline
  deriving DecidableEq, Repr

end Toml

/-- A value of a document. What the other scalars are makes no difference here. -/
inductive Toml where
  | string (s : String)
  | integer (n : Int)
  | scalar
  | array (items : List Toml)
  | table (form : Toml.Form) (entries : List (String × Toml))
  /-- Tables under one header in double brackets, the newest last. -/
  | tables (elements : List (List (String × Toml)))

namespace Toml

abbrev Entries := List (String × Toml)

namespace Entries

def get? (es : Entries) (key : String) : Option Toml := (es.find? (·.1 == key)).map (·.2)

/-- Gives `key` a value, in the place where it had one or else at the end. -/
def set (es : Entries) (key : String) (v : Toml) : Entries :=
  if (es.get? key).isSome then es.map fun e => if e.1 == key then (key, v) else e else es ++ [(key, v)]

end Entries

/-- Edits the table that a path of keys leads to, making tables of the form `made` where there are none. Dotted keys
    do not lead into tables that a header opened. -/
def descend (made : Form) (edit : Form → Entries → Option Entries) (form : Form) : List String → Entries → Option Entries
  | [], es => edit form es
  | k :: ks, es =>
    match es.get? k with
    | none => (descend made edit made ks []).map fun sub => es.set k (.table made sub)
    | some (.table f sub) =>
      if f = .inline ∨ (f = .header ∧ made = .dotted) then none
      else (descend made edit f ks sub).map fun sub => es.set k (.table f sub)
    | some (.tables elements) =>
      match elements.getLast? with
      | none => none
      | some last => (descend made edit .header ks last).map fun last => es.set k (.tables (elements.dropLast ++ [last]))
    | some _ => none

def addNew (key : String) (v : Toml) (es : Entries) : Option Entries :=
  if (es.get? key).isSome then none else some (es ++ [(key, v)])

/-- Adds the value of a key, dotted or not, to the entries of a table. A dotted key ends in a table made by dotted keys. -/
def assign (es : Entries) (key : List String) (v : Toml) : Option Entries :=
  match key.getLast? with
  | none => none
  | some last =>
    let path := key.dropLast
    descend .dotted (fun form es => if path ≠ [] ∧ form ≠ .dotted then none else addNew last v es) .header path es

def reopened (parent : Entries) (key : String) : Option Entries :=
  match parent.get? key with
  | none => some []
  | some (.table .implied es) => some es
  | some _ => none

/-- A part of a document: the header it stands under and the keys it assigns, in order. -/
structure Section where
  header : List String
  isElement : Bool
  assignments : List (List String × Toml)

def assignAll (es : Entries) (assignments : List (List String × Toml)) : Option Entries :=
  assignments.foldlM (fun es a => assign es a.1 a.2) es

def addSection (root : Entries) (s : Section) : Option Entries :=
  match s.header.getLast? with
  | none => assignAll root s.assignments
  | some key =>
    let edit (_ : Form) (parent : Entries) : Option Entries :=
      if s.isElement then
        match parent.get? key with
        | none => (assignAll [] s.assignments).map fun es => parent.set key (.tables [es])
        | some (.tables elements) =>
          (assignAll [] s.assignments).map fun es => parent.set key (.tables (elements ++ [es]))
        | some _ => none
      else do
        let es ← assignAll (← reopened parent key) s.assignments
        return parent.set key (.table .header es)
    descend .implied edit .header s.header.dropLast root

def ofSections (sections : List Section) : Option Entries := sections.foldlM addSection []

end Toml

end TableMigrations
