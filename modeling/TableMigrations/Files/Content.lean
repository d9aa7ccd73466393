/-
  TableMigrations.Files.Content — what a file holds.

  The files of a database are kept as what they say. Their bytes are made when they are read as any other file's.
-/
import TableMigrations.Store.Image

namespace TableMigrations

/-- The changes that a database's file does not have yet, as what the database is with them. -/
structure Log where
  image : Image
  /-- Whether the log has every page of the database, so that the file adds nothing to it. -/
  whole : Bool
  deriving DecidableEq, Repr

inductive Content where
  | bytes (b : ByteArray)
  | database (i : Image)
  | log (l : Log)
  /-- Where in a log the pages are. -/
  | index
  deriving DecidableEq

namespace Content

def empty : Content := .bytes .empty

def ofBytes (b : ByteArray) : Content :=
  match Image.ofBytes? b with
  | some i => .database i
  | none => .bytes b

/-- The bytes. Those of a log and of an index are no text. -/
def toBytes : Content → ByteArray
  | .bytes b => b
  | .database i => i.bytes
  | .log _ | .index => ⟨#[Image.mark]⟩

def isEmpty : Content → Bool
  | .bytes b => b.isEmpty
  | .database _ | .log _ | .index => false

end Content

end TableMigrations
