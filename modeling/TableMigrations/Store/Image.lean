/-
  TableMigrations.Store.Image — what a database file of the program holds, and its bytes.

  An image starts with a page that tells whether the file's changes go through a log of their own. A mark and the two
  relations follow once these are made.
-/
import TableMigrations.Store.Codec

namespace TableMigrations

/-- The content of a database file. `logged` tells that its changes go through a log; there are no relations until
    they are made. -/
structure Image where
  logged : Bool
  relations : Option Relations
  deriving DecidableEq, Repr

namespace Image

/-- The byte between a file's first page and its relations; it opens no text. -/
def mark : UInt8 := 0xFF

def pageSize : Nat := 4096

/-- What a database file starts with. The two bytes of the format's version tell whether changes go through a log. -/
def heading (logged : Bool) : List UInt8 :=
  let version : UInt8 := if logged then 2 else 1
  "SQLite format 3".toUTF8.toList ++ [0, 16, 0, version, version, 0, 64, 32, 32, 0, 0, 0, 1, 0, 0, 0, 1] ++
    List.replicate 63 0 ++ [1, 0, 46, 122, 112, 13, 0, 0, 0, 0, 16]

def firstPage (logged : Bool) : ByteArray :=
  let h := heading logged
  ⟨(h ++ List.replicate (pageSize - h.length) 0).toArray⟩

def bytes (i : Image) : ByteArray :=
  match i.relations with
  | none => firstPage i.logged
  | some r => firstPage i.logged ++ ⟨#[mark]⟩ ++ ⟨(Codec.relations.write r).toArray⟩

def pages (i : Image) : Nat := (i.bytes.size + pageSize - 1) / pageSize

def relationsOf? (content : ByteArray) : Option (Option Relations) :=
  if content.size = pageSize then some none
  else if content[pageSize]? = some mark then
    match Codec.relations.read? (content.extract (pageSize + 1) content.size).data.toList with
    | some (r, []) => some (some r)
    | _ => none
  else none

def ofBytes? (content : ByteArray) : Option Image :=
  let first := content.extract 0 pageSize
  if first = firstPage true then (relationsOf? content).map (⟨true, ·⟩)
  else if first = firstPage false then (relationsOf? content).map (⟨false, ·⟩)
  else none

end Image

end TableMigrations
