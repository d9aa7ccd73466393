/-
  TableMigrations.Migration.Error — how a run can fail.
-/
import TableMigrations.Operation.Notation
import TableMigrations.Files.Error

namespace TableMigrations

inductive MigrateError where
  | discover (path : String) (source : FileError)
  | read (path : String) (source : FileError)
  | parse (line : Nat) (source : LineError)
  | store (source : StoreError)
  | unsupportedOperation (mode : Mode)
  | historyConflict (id : String)
  | cancelled
  | migration (id : String) (source : MigrateError)
  deriving DecidableEq, Repr

namespace MigrateError

def message : MigrateError → String
  | .discover path e => s!"failed to read migration directory {path}: {e.message}"
  | .read path e => s!"failed to read {path}: {e.message}"
  | .parse n e => s!"line {n}: {e.message}"
  | .store e => e.message
  | .unsupportedOperation mode => s!"operation {mode.name} cannot be sent as a batch action"
  | .historyConflict id => s!"migration '{id}' was recorded by another writer"
  | .cancelled => "migration run cancelled"
  | .migration id e => s!"migration '{id}' failed: {e.message}"

def migrationId : MigrateError → Option String
  | .migration id _ => some id
  | _ => none

def cause : MigrateError → MigrateError
  | .migration _ e => e.cause
  | e => e

end MigrateError

/-- The operation as a batch action; one on a whole table cannot be sent so. -/
def Operation.toAction (op : Operation) : Except MigrateError BatchAction :=
  match op.action? with
  | some a => .ok a
  | none => .error (.unsupportedOperation op.mode)

@[simp] theorem Operation.toAction_row (table : String) (kind : ActionKind) (e : Entity) :
    (⟨table, .row kind e⟩ : Operation).toAction = .ok (.ofRow kind e) := rfl

end TableMigrations
