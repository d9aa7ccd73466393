/-
  TableMigrations.Operation.Json — operations as nodes of a format, and as JSON texts.

  An operation is a record of its table and its change, an entity one of its keys and its properties, and a patch one of
  its properties, which are a map. Values and changes are variants, named for their types and modes; to empty a table
  takes no more than the name.
-/
import TableMigrations.Json.Format
import TableMigrations.Operation

namespace TableMigrations

section

variable (F : TextFormat)

/-! ## writing -/

def Value.toNode : Value → F.Node
  | .string s => F.variant "String" (F.string s)
  | .int64 n => F.variant "Int64" (F.int64 n)
  | .double x => F.variant "Double" (F.double x)
  | .bool b => F.variant "Bool" (F.bool b)

def Properties.toNode (p : Properties) : F.Node := F.map (p.entries.map fun e => (e.1, e.2.toNode F))

def Entity.toNode (e : Entity) : F.Node :=
  F.record
    [("partition_key", F.string e.key.partition), ("row_key", F.string e.key.row),
      ("properties", e.properties.toNode F)]

def Patch.toNode (p : Patch) : F.Node := F.record [("properties", p.properties.toNode F)]

def Change.toNode : Change → F.Node
  | .row kind e => F.variant (Mode.row kind).name (e.toNode F)
  | .updateAll p => F.variant Mode.updateAll.name (p.toNode F)
  | .deleteAll => F.bareVariant Mode.deleteAll.name

def Operation.toNode (op : Operation) : F.Node :=
  F.record [("table", F.string op.table), ("operation", op.change.toNode F)]

/-! ## reading -/

def Value.ofNode? (n : F.Node) : Option Value := do
  match ← F.variant? n with
  | ("String", some n) => (F.string? n).map .string
  | ("Int64", some n) => (F.int64? n).map .int64
  | ("Double", some n) => (F.double? n).map .double
  | ("Bool", some n) => (F.bool? n).map .bool
  | _ => none

/-- Of two properties with one name the later counts. -/
def Properties.ofNode? (n : F.Node) : Option Properties := do
  let entries ← (← F.map? n).mapM fun e => (Value.ofNode? F e.2).map fun v => (e.1, v)
  return .ofList entries

def Entity.ofNode? (n : F.Node) : Option Entity := do
  match ← F.record? ["partition_key", "row_key", "properties"] n with
  | [p, r, ps] => return ⟨⟨← F.string? p, ← F.string? r⟩, ← Properties.ofNode? F ps⟩
  | _ => none

def Patch.ofNode? (n : F.Node) : Option Patch := do
  match ← F.record? ["properties"] n with
  | [ps] => return ⟨← Properties.ofNode? F ps⟩
  | _ => none

def Mode.ofName? (name : String) : Option Mode :=
  [.row .add, .row .updateMerge, .row .updateReplace, .row .upsertMerge, .row .upsertReplace, .row .delete, .updateAll,
    .deleteAll].find? (Mode.name · == name)

def Change.ofNode? (n : F.Node) : Option Change := do
  let (name, n) ← F.variant? n
  match ← Mode.ofName? name, n with
  | .row kind, some n => (Entity.ofNode? F n).map (.row kind)
  | .updateAll, some n => (Patch.ofNode? F n).map .updateAll
  | .deleteAll, none => some .deleteAll
  | .deleteAll, some n => if F.isUnit n then some .deleteAll else none
  | _, none => none

def Operation.ofNode? (n : F.Node) : Option Operation := do
  match ← F.record? ["table", "operation"] n with
  | [t, c] => return ⟨← F.string? t, ← Change.ofNode? F c⟩
  | _ => none

/-! ## texts -/

def Operation.writeText (op : Operation) : String := F.write (op.toNode F)

def Operation.readText? (text : String) : Option Operation := do Operation.ofNode? F (← F.read? text)

end

abbrev Operation.writeJson (op : Operation) : String := op.writeText Json.format

abbrev Operation.readJson? (text : String) : Option Operation := Operation.readText? Json.format text

end TableMigrations
