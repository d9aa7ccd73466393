/-
  TableMigrations.Operation — what a migration line asks for.

  Row operations are the six row writes; two operations take a whole table: one patches every row, one empties it.
-/
import TableMigrations.Store.Action

namespace TableMigrations

structure Patch where
  properties : Properties
  deriving DecidableEq, Repr

/-- The row with the patch written over it; nothing if the row has agreeing values for all of it already. -/
def Patch.apply (p : Patch) (e : Entity) : Option Entity :=
  if p.properties.entries.all fun q => (e.get? q.1).any (·.agrees q.2) then none
  else some { e with properties := e.properties.insertAll p.properties }

inductive Mode where
  | row (kind : ActionKind)
  | updateAll
  | deleteAll
  deriving DecidableEq, Repr

namespace Mode

def name : Mode → String
  | .row .add => "Insert"
  | .row .updateMerge => "UpdateMerge"
  | .row .updateReplace => "UpdateReplace"
  | .row .upsertMerge => "UpsertMerge"
  | .row .upsertReplace => "UpsertReplace"
  | .row .delete => "DeleteSingle"
  | .updateAll => "UpdateAll"
  | .deleteAll => "DeleteAll"

def opcode : Mode → String
  | .row .add => "INSERT"
  | .row .updateMerge => "UPDATEM"
  | .row .updateReplace => "UPDATER"
  | .row .upsertMerge => "UPSERTM"
  | .row .upsertReplace => "UPSERTR"
  | .row .delete => "DELETE"
  | .updateAll => "UPDATEA"
  | .deleteAll => "DELETE"

def actionKind : Mode → Option ActionKind
  | .row kind => some kind
  | .updateAll | .deleteAll => none

end Mode

inductive Change where
  | row (kind : ActionKind) (entity : Entity)
  | updateAll (patch : Patch)
  | deleteAll
  deriving DecidableEq, Repr

structure Operation where
  table : String
  change : Change
  deriving DecidableEq, Repr

namespace Operation

def mode (op : Operation) : Mode :=
  match op.change with
  | .row kind _ => .row kind
  | .updateAll _ => .updateAll
  | .deleteAll => .deleteAll

def agrees (a b : Operation) : Bool :=
  a.table == b.table && match a.change, b.change with
    | .row k e, .row l f => k == l && e.agrees f
    | .updateAll p, .updateAll q => p.properties.agrees q.properties
    | .deleteAll, .deleteAll => true
    | _, _ => false

end Operation

/-- The action of a row write. A deletion names its row and carries no properties. -/
def BatchAction.ofRow (kind : ActionKind) (e : Entity) : BatchAction :=
  match kind with
  | .delete => ⟨.delete, .bare e.key⟩
  | kind => ⟨kind, e⟩

def Operation.action? (op : Operation) : Option BatchAction :=
  match op.change with
  | .row kind e => some (.ofRow kind e)
  | .updateAll _ | .deleteAll => none

end TableMigrations
