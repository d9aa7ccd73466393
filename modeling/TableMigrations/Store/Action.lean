/-
  TableMigrations.Store.Action — row writes, the rules of a batch, and what a store can refuse.

  A batch writes rows of one partition of one table, all or none. The effect of one action on one row is the
  same for every store (`BatchAction.resolve`); what a store adds is where its rows are kept.
-/
import TableMigrations.Store.Value

namespace TableMigrations

/-- What a row write asks for and does: `add` wants no row, updates and `delete` want one, upserts take either. -/
inductive ActionKind where
  | add
  | updateMerge
  | updateReplace
  | upsertMerge
  | upsertReplace
  | delete
  deriving DecidableEq, Repr

structure BatchAction where
  kind : ActionKind
  entity : Entity
  deriving DecidableEq, Repr

def BatchAction.partition (a : BatchAction) : String := a.entity.key.partition

inductive StoreError where
  | tableNotFound (table : String)
  | conflict (table : String) (key : RowKey)
  | entityNotFound (table : String) (key : RowKey)
  | batchTooLarge (actual limit : Nat)
  | partitionMismatch (expected found : String)
  | batchRejected (index : Nat) (source : StoreError)
  | codec (reason : String)
  | lockPoisoned
  | database (reason : String)
  deriving DecidableEq, Repr

namespace StoreError

def message : StoreError → String
  | .tableNotFound t => s!"table '{t}' not found"
  | .conflict t k => s!"entity ({k.partition}, {k.row}) already exists in '{t}'"
  | .entityNotFound t k => s!"entity ({k.partition}, {k.row}) not found in '{t}'"
  | .batchTooLarge n limit => s!"batch of {n} actions exceeds the limit of {limit}"
  | .partitionMismatch expected found => s!"action targets partition '{found}' in a batch for partition '{expected}'"
  | .batchRejected i source => s!"batch rejected at action {i}: {source.message}"
  | .codec reason => s!"codec error: {reason}"
  | .lockPoisoned => "store lock poisoned"
  | .database reason => s!"sqlite error: {reason}"

def root : StoreError → StoreError
  | .batchRejected _ source => source.root
  | e => e

def isConflict (e : StoreError) : Bool :=
  match e.root with
  | .conflict .. => true
  | _ => false

theorem isConflict_iff {e : StoreError} : e.isConflict = true ↔ ∃ table key, e.root = .conflict table key := by
  unfold isConflict
  cases e.root <;> simp

end StoreError

/-! ## the rules -/

def maxBatchActions : Nat := 100

/-- What any store asks of a batch before it looks at its rows. -/
def checkBatch (partition : String) (actions : List BatchAction) : Except StoreError Unit :=
  if maxBatchActions < actions.length then .error (.batchTooLarge actions.length maxBatchActions)
  else match actions.find? (·.partition != partition) with
    | some stray => .error (.partitionMismatch partition stray.partition)
    | none => .ok ()

inductive Write where
  | put (e : Entity)
  | remove
  deriving DecidableEq, Repr

def BatchAction.resolve (table : String) (a : BatchAction) (existing : Option Entity) : Except StoreError Write :=
  match a.kind, existing with
  | .add, some _ => .error (.conflict table a.entity.key)
  | .add, none => .ok (.put a.entity)
  | .upsertReplace, _ => .ok (.put a.entity)
  | .upsertMerge, none => .ok (.put a.entity)
  | .upsertMerge, some row => .ok (.put (row.merge a.entity))
  | .updateMerge, some row => .ok (.put (row.merge a.entity))
  | .updateReplace, some _ => .ok (.put a.entity)
  | .delete, some _ => .ok .remove
  | .updateMerge, none | .updateReplace, none | .delete, none => .error (.entityNotFound table a.entity.key)

/-- Applies the actions in turn to what `step` works on; the first that fails rejects the batch with its index. -/
def applyActions {τ : Type} (step : τ → BatchAction → Except StoreError τ) (index : Nat) (rows : τ) :
    List BatchAction → Except StoreError τ
  | [] => .ok rows
  | a :: r =>
    match step rows a with
    | .ok rows => applyActions step (index + 1) rows r
    | .error e => .error (.batchRejected index e)

end TableMigrations
