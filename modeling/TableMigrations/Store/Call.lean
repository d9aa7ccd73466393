/-
  TableMigrations.Store.Call — the requests a table store answers.

  A call and its answer are values, so a run can be followed call by call, interrupted between two of them, and
  replayed against any store.
-/
import TableMigrations.Store.Action

namespace TableMigrations

/-- Rows in key order, and where the next page starts, if there may be one. -/
structure EntityPage where
  entities : List Entity
  continuation : Option RowKey
  deriving DecidableEq, Repr

inductive Call where
  | ensureTable (table : String)
  | deleteTable (table : String)
  | getEntity (table : String) (key : RowKey)
  | submitBatch (table partition : String) (actions : List BatchAction)
  | queryPage (table : String) (pageSize : Nat) (after : Option RowKey)
  deriving DecidableEq, Repr

/-- Whether a call can leave the store only as it was. -/
def Call.isRead : Call → Bool
  | .getEntity .. | .queryPage .. => true
  | .ensureTable _ | .deleteTable _ | .submitBatch .. => false

abbrev Call.Result : Call → Type
  | .ensureTable _ | .deleteTable _ | .submitBatch .. => Unit
  | .getEntity .. => Option Entity
  | .queryPage .. => EntityPage

/-- A store: it answers calls, and its state after a call is a value. -/
class TableStore (σ : Type) where
  perform : σ → (c : Call) → Except StoreError c.Result × σ
  /-- How many rows all tables hold together. -/
  rowTotal : σ → Nat

/-- A page of the rows past a position: `size` of them, and the last one's key if more follow. -/
def EntityPage.ofRows (size : Nat) (rows : List Entity) : EntityPage :=
  let taken := rows.take size
  ⟨taken, if size < rows.length then taken.getLast?.map (·.key) else none⟩

/-! ## the history ledger

  A history record is a row like any other, written once: by a batch of one `add`. -/

abbrev recordCall (table : String) (record : Entity) : Call :=
  .submitBatch table record.key.partition [⟨.add, record⟩]

/-- A record is one action, so a refusal of its batch is told as the refusal of that action. -/
def StoreError.ofRecord : StoreError → StoreError
  | .batchRejected _ source => source
  | e => e

@[simp] theorem StoreError.ofRecord_batchRejected (index : Nat) (source : StoreError) :
    (batchRejected index source).ofRecord = source := rfl

theorem StoreError.ofRecord_of_ne {e : StoreError} (h : ∀ index source, e ≠ .batchRejected index source) :
    e.ofRecord = e := by
  cases e with
  | batchRejected index source => exact absurd rfl (h index source)
  | _ => rfl

end TableMigrations
