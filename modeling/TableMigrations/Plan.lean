/-
  TableMigrations.Plan — a migration's operations as steps on the store.

  Operations are taken table by table, in the order in which the tables first appear. Within a table the row writes
  between two operations on the whole table are gathered, told apart by partition and cut into batches; emptying a
  table does not wait for the row writes gathered so far, a patch of every row does.
-/
import TableMigrations.Migration.Error
import TableMigrations.Store.Pager

namespace TableMigrations

/-! ## sorting out and cutting up -/

def fileUnder {κ α : Type} [DecidableEq κ] (k : κ) (a : α) : List (κ × List α) → List (κ × List α)
  | [] => [(k, [a])]
  | (j, as) :: r => if j = k then (j, as ++ [a]) :: r else (j, as) :: fileUnder k a r

/-- The members by key, the keys in order of first appearance. -/
def classify {κ α : Type} [DecidableEq κ] (key : α → κ) (l : List α) : List (κ × List α) :=
  l.foldl (fun classes a => fileUnder (key a) a classes) []

/-- The list cut into runs of `size`; the last may be shorter, and a size of zero counts as one. -/
def pieces {α : Type} (size : Nat) : List α → List (List α)
  | [] => []
  | a :: l => (a :: l.take (size - 1)) :: pieces size (l.drop (size - 1))
  termination_by l => l.length

structure TableGroup where
  table : String
  operations : List Operation
  deriving DecidableEq, Repr

def groupByTable (ops : List Operation) : List TableGroup := (classify (·.table) ops).map fun c => ⟨c.1, c.2⟩

structure Batch where
  table : String
  partition : String
  actions : List BatchAction
  deriving DecidableEq, Repr

/-- Batches of at most `size` actions of one partition each. -/
def chunkByPartition (table : String) (actions : List BatchAction) (size : Nat) : List Batch :=
  (classify (·.partition) actions).flatMap fun c => (pieces size c.2).map (⟨table, c.1, ·⟩)

/-! ## steps -/

structure Limits where
  batch : Nat
  page : Nat
  deriving DecidableEq, Repr

/-- Limits that any store accepts: at least one, and of actions no more than a batch may have. -/
def Limits.within (batch page : Nat) : Limits := ⟨max 1 (min batch maxBatchActions), max page 1⟩

/-- One thing to do, with at most one store call. -/
inductive Step where
  /-- The table is there before its operations. -/
  | prepare (table : String)
  /-- A table is emptied by deleting it and making it anew. -/
  | drop (table : String)
  | recreate (table : String)
  | submit (batch : Batch)
  /-- The scan goes on, and so does the patching of its rows. -/
  | scan (pager : Pager) (patch : Patch)
  deriving DecidableEq, Repr

def submitSteps (table : String) (actions : List BatchAction) (limits : Limits) : List Step :=
  (chunkByPartition table actions limits.batch).map .submit

/-- The steps of a table's operations; `gathered` are the row writes that wait for their batches. What is left when the
    operations on the whole table have been taken out can be sent as an action. -/
def changeSteps (limits : Limits) (table : String) (gathered : List BatchAction) : List Change → List Step
  | [] => submitSteps table gathered limits
  | .deleteAll :: r => .drop table :: .recreate table :: changeSteps limits table gathered r
  | .updateAll patch :: r =>
    submitSteps table gathered limits ++ .scan (.start table limits.page) patch :: changeSteps limits table [] r
  | .row kind e :: r =>
    match h : (⟨table, .row kind e⟩ : Operation).toAction with
    | .ok a => changeSteps limits table (gathered ++ [a]) r
    | .error _ => nomatch (Operation.toAction_row table kind e).symm.trans h

theorem changeSteps_row (limits : Limits) (table : String) (gathered : List BatchAction) (kind : ActionKind) (e : Entity)
    (r : List Change) :
    changeSteps limits table gathered (.row kind e :: r) = changeSteps limits table (gathered ++ [.ofRow kind e]) r := rfl

def TableGroup.steps (limits : Limits) (g : TableGroup) : List Step :=
  .prepare g.table :: changeSteps limits g.table [] (g.operations.map (·.change))

def planSteps (limits : Limits) (ops : List Operation) : List Step := (groupByTable ops).flatMap (·.steps limits)

end TableMigrations
