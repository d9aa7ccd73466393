/-
  TableMigrations.Execution — carrying out the steps of one migration.
-/
import TableMigrations.Plan
import TableMigrations.Process

namespace TableMigrations

structure Stats where
  batches : Nat
  actions : Nat
  truncatedTables : Nat
  scannedEntities : Nat
  patchedEntities : Nat
  deriving DecidableEq, Repr

def Stats.zero : Stats := ⟨0, 0, 0, 0, 0⟩

structure Execution where
  limits : Limits
  agenda : List Step
  stats : Stats
  deriving DecidableEq, Repr

namespace Execution

def start (limits : Limits) (ops : List Operation) : Execution := ⟨limits, planSteps limits ops, .zero⟩

/-- The writes that patch the rows of a page; a row that the patch leaves as it is gets none. -/
def patches (patch : Patch) (rows : List Entity) : List BatchAction :=
  (rows.filterMap patch.apply).map (⟨.updateMerge, ·⟩)

def receivePage (e : Execution) (pager : Pager) (patch : Patch) (page : EntityPage) (rest : List Step) : Execution :=
  match pager.receive page with
  | (none, _) => { e with agenda := rest }
  | (some rows, pager) =>
    let actions := patches patch rows
    { e with
      agenda := submitSteps pager.table actions e.limits ++ .scan pager patch :: rest
      stats := { e.stats with
        scannedEntities := e.stats.scannedEntities + rows.length
        patchedEntities := e.stats.patchedEntities + actions.length } }

def orFail {α : Type} (go : α → Execution) : Except StoreError α → Except MigrateError Execution
  | .ok a => .ok (go a)
  | .error e => .error (.store e)

def next (e : Execution) : Next Execution Stats :=
  match e.agenda with
  | [] => .done (.ok e.stats)
  | .prepare t :: r => .call true .data (.ensureTable t) (orFail fun _ => { e with agenda := r })
  | .drop t :: r => .call true .data (.deleteTable t) (orFail fun _ => { e with agenda := r })
  | .recreate t :: r =>
    .call true .data (.ensureTable t) (orFail fun _ =>
      { e with agenda := r, stats := { e.stats with truncatedTables := e.stats.truncatedTables + 1 } })
  | .submit b :: r =>
    .call true .data (.submitBatch b.table b.partition b.actions) (orFail fun _ =>
      { e with
        agenda := r
        stats := { e.stats with batches := e.stats.batches + 1, actions := e.stats.actions + b.actions.length } })
  | .scan pager patch :: r =>
    if pager.exhausted then .checkpoint { e with agenda := r }
    else
      .call true .data (.queryPage pager.table pager.pageSize pager.after)
        (orFail fun page => e.receivePage pager patch page r)

instance : Process Execution Stats := ⟨next⟩

/-! ## how long it can take -/

/-- The transitions that a step takes at most, when no table ever has more than `rows` rows: each page of a scan
    has a row of its own, and so has each batch. -/
def stepBudget (rows : Nat) : Step → Nat
  | .scan .. => 2 * rows + 2
  | _ => 1

def budget (rows : Nat) (e : Execution) : Nat := e.agenda.foldr (stepBudget rows · + ·) 0 + 1

end Execution

def execute {σ η : Type} [TableStore σ] [TableStore η] (cond : Conditions) (limits : Limits) (ops : List Operation)
    (stores : Stores σ η) : Course σ η Stats :=
  let e := Execution.start limits ops
  follow (fun _ _ => .error .notFound) cond (e.budget (stores.rowTotal + ops.length)) 0 stores e

end TableMigrations
