/-
  TableMigrations.Proofs.Ledger — the table of history records, and what leaves it alone.

  An execution calls the data store only, about the tables that its operations name (`mem_execute_calls`). So it leaves
  the ledger as it was unless both are in one store and an operation names the ledger's table
  (`ledgerTable_execute`). The ledger's own calls are told by what they do to the records.
-/
import TableMigrations.Proofs.Backends
import TableMigrations.Run

namespace TableMigrations

/-! ## what an execution calls -/

def Step.table : Step → String
  | .prepare t | .drop t | .recreate t => t
  | .submit b => b.table
  | .scan pager _ => pager.table

theorem table_of_submitSteps {limits : Limits} {table : String} {actions : List BatchAction} {step : Step}
    (h : step ∈ submitSteps table actions limits) : step.table = table := by
  obtain ⟨b, hb, rfl⟩ := List.mem_map.mp h
  exact (mem_chunkByPartition hb).1

theorem table_of_planSteps {limits : Limits} {ops : List Operation} {step : Step} (h : step ∈ planSteps limits ops) :
    step.table ∈ ops.map (·.table) := by
  obtain ⟨t, ht, hs⟩ := serves_planSteps h
  have heq : step.table = t := by
    cases hs with
    | prepare | drop | recreate | scan => rfl
    | submit he _ => exact he
  rw [heq]
  exact ht

namespace Execution

def About (tables : List String) (e : Execution) : Prop := ∀ step ∈ e.agenda, step.table ∈ tables

variable {tables : List String} {e : Execution}

theorem about_start (limits : Limits) (ops : List Operation) : About (ops.map (·.table)) (start limits ops) := by
  intro step h
  exact table_of_planSteps h

theorem about_receivePage {pager : Pager} {patch : Patch} {page : EntityPage} {r : List Step}
    (hp : pager.table ∈ tables) (hr : ∀ step ∈ r, step.table ∈ tables) :
    About tables (e.receivePage pager patch page r) := by
  intro step hs
  simp only [receivePage, Pager.receive] at hs
  split at hs
  · exact hr step hs
  · rename_i heq
    obtain ⟨-, rfl⟩ := Prod.mk.inj heq
    rcases List.mem_append.mp hs with hs | hs
    · rw [table_of_submitSteps hs]; exact hp
    · rcases List.mem_cons.mp hs with rfl | hs
      · exact hp
      · exact hr step hs

/-- What an execution asks for next: nothing, to go on, or a guarded call to the data store about one of its tables,
    whose refusal ends it. -/
theorem next_about (h : About tables e) :
    (∃ stats, e.next = .done (.ok stats)) ∨ (∃ go, e.next = .checkpoint go ∧ About tables go) ∨
      ∃ (c : Call) (go : c.Result → Execution), e.next = .call true .data c (orFail go) ∧ c.table ∈ tables ∧
        ∀ a, About tables (go a) := by
  obtain ⟨limits, agenda, stats⟩ := e
  cases agenda with
  | nil => exact Or.inl ⟨stats, rfl⟩
  | cons step r =>
    obtain ⟨hs, hr⟩ := List.forall_mem_cons.mp h
    cases step with
    | prepare t | drop t | recreate t => exact Or.inr (Or.inr ⟨_, _, rfl, hs, fun _ => hr⟩)
    | submit b => exact Or.inr (Or.inr ⟨_, _, rfl, hs, fun _ => hr⟩)
    | scan pager patch =>
      rcases hx : pager.exhausted with _ | _
      · exact Or.inr (Or.inr ⟨_, _, next_scan hx, hs, fun _ => about_receivePage hs hr⟩)
      · exact Or.inr (Or.inl ⟨_, next_exhausted hx, hr⟩)

/-! ## what holds along an execution -/

section

variable {σ η : Type} [TableStore σ] [TableStore η] {files : FileReader σ} {cond : Conditions} {I : Execution → Prop}
  {P : Call → Prop}

/-- All that an execution in a state of `I` does is to end, to go on in such a state, or to make a guarded call of `P`
    to the data store, whose refusal ends it and whose answers lead to such states. -/
def Confined (I : Execution → Prop) (P : Call → Prop) : Prop :=
  ∀ e, I e → (∃ stats, e.next = .done (.ok stats)) ∨ (∃ go, e.next = .checkpoint go ∧ I go) ∨
    ∃ (c : Call) (go : c.Result → Execution), e.next = .call true .data c (orFail go) ∧ P c ∧ ∀ a, I (go a)

theorem confined_about (tables : List String) : Confined (About tables) (·.table ∈ tables) := fun _ h => next_about h

theorem Confined.next_all (hI : Confined I P) (e : Execution) (h : I e) :
    e.next.All I (fun x => x.1 = .data ∧ P x.2) fun _ => True := by
  rcases hI e h with ⟨stats, he⟩ | ⟨go, he, hgo⟩ | ⟨c, go, he, hc, hgo⟩
  · rw [he]; exact fun _ _ => trivial
  · rw [he]; exact hgo
  · rw [he]
    refine ⟨⟨rfl, hc⟩, ?_⟩
    intro answer
    cases answer with
    | ok a => exact hgo a
    | error e => trivial

theorem Confined.path (hI : Confined I P) {n : Nat} {a b : Config σ η Execution} {l : List (Target × Call)}
    (h : I a.state) (hp : Path files cond n a l b) : ∀ x ∈ l, x.1 = .data ∧ P x.2 :=
  (hp.all hI.next_all h).2

theorem Confined.follow (hI : Confined I P) {fuel : Nat} {a : Config σ η Execution} (h : I a.state) :
    ∀ x ∈ (a.follow files cond fuel).calls, x.1 = .data ∧ P x.2 :=
  (follow_all files cond hI.next_all trivial fuel h).1

end

end Execution

section

variable {σ η : Type} [TableStore σ] [TableStore η]

/-- An execution calls the data store, about tables that its operations name. -/
theorem mem_execute_calls {cond : Conditions} {limits : Limits} {ops : List Operation} {stores : Stores σ η}
    {x : Target × Call} (h : x ∈ (execute cond limits ops stores).calls) :
    x.1 = .data ∧ x.2.table ∈ ops.map (·.table) :=
  (Execution.confined_about _).follow (a := ⟨0, stores, .start limits ops⟩) (Execution.about_start limits ops) x h

end

/-! ## the ledger's table -/

namespace Stores

def isShared {σ η : Type} : Stores σ η → Bool
  | .shared _ => true
  | .separate .. => false

def ledger {σ : Type} : Stores σ σ → σ
  | .shared s => s
  | .separate _ l => l

variable {σ η : Type} [TableStore σ] [TableStore η]

def records (stores : Stores σ η) (table id : String) : Bool :=
  match (stores.perform .ledger (.getEntity table (historyKey id))).1 with
  | .ok (some _) => true
  | .ok none | .error _ => false

theorem isShared_perform (stores : Stores σ η) (target : Target) (c : Call) :
    (stores.perform target c).2.isShared = stores.isShared := by
  cases stores <;> cases target <;> rfl

theorem isShared_performUnder (cond : Conditions) (made : Nat) (stores : Stores σ η) (target : Target) (c : Call) :
    (performUnder cond made stores target c).2.isShared = stores.isShared := by
  unfold performUnder
  cases cond.fault (made + 1) with
  | some e => rfl
  | none => exact stores.isShared_perform target c

theorem isShared_view [MemoryLike σ] [MemoryLike η] (stores : Stores σ η) : stores.view.isShared = stores.isShared := by
  cases stores <;> rfl

theorem perform_ledger (stores : Stores σ σ) (c : Call) :
    (stores.perform .ledger c).1 = (TableStore.perform stores.ledger c).1 ∧
      (stores.perform .ledger c).2.ledger = (TableStore.perform stores.ledger c).2 := by
  cases stores <;> exact ⟨rfl, rfl⟩

theorem checkBatch_record (id : String) :
    checkBatch (historyRecord id).key.partition [⟨.add, historyRecord id⟩] = .ok () := by
  refine checkBatch_eq_ok_iff.mpr ⟨show 1 ≤ maxBatchActions by decide, ?_⟩
  intro a ha
  rw [List.mem_singleton.mp ha]; rfl

variable [MemoryLike σ] [MemoryLike η]

def ledgerTable (stores : Stores σ η) (table : String) : Option Rows := stores.view.ledger.tables.get? table

section

variable {stores : Stores σ η} (h : stores.Reachable) (table : String)

include h

theorem ledgerTable_perform (c : Call) :
    (stores.perform .ledger c).1 = (TableStore.perform stores.view.ledger c).1 ∧
      (stores.perform .ledger c).2.ledgerTable table =
        (TableStore.perform stores.view.ledger c).2.tables.get? table := by
  obtain ⟨hanswer, hledger⟩ := stores.view.perform_ledger c
  constructor
  · rw [answer_view h, hanswer]
  · rw [ledgerTable, perform_view h, hledger]

theorem ensure_ledgerTable :
    (stores.perform .ledger (.ensureTable table)).1 = .ok () ∧
      (stores.perform .ledger (.ensureTable table)).2.ledgerTable table =
        some ((stores.ledgerTable table).getD .empty) := by
  obtain ⟨hanswer, hafter⟩ := ledgerTable_perform h table (.ensureTable table)
  refine ⟨hanswer, hafter.trans ?_⟩
  show (stores.view.ledger.ensureTable table).tables.get? table = _
  rw [MemoryStore.ensureTable_eq, MemoryStore.get?_withRows_self]; rfl

/-- A ledger that has its table is left as it was when that is made sure of. -/
theorem ensure_present [Transparent σ] [Transparent η] (ht : stores.ledgerTable table ≠ none) :
    (stores.perform .ledger (.ensureTable table)).2 = stores := by
  apply eq_of_view (h.perform .ledger (.ensureTable table)) h
  have ht : stores.view.ledger.tables.get? table ≠ none := ht
  have hpresent : stores.view.ledger.ensureTable table = stores.view.ledger := by
    rw [MemoryStore.ensureTable, SortedMap.contains_eq, if_pos (Option.isSome_iff_ne_none.mpr ht)]
  rw [perform_view h]
  cases stores with
  | shared s => exact congrArg Stores.shared hpresent
  | separate s l => exact congrArg (Stores.separate (MemoryLike.view s)) hpresent

theorem lookup_ledgerTable (key : RowKey) :
    (stores.perform .ledger (.getEntity table key)).1 =
        (match stores.ledgerTable table with
        | some rows => .ok (rows.get? key)
        | none => .error (.tableNotFound table)) ∧
      (stores.perform .ledger (.getEntity table key)).2.ledgerTable table = stores.ledgerTable table :=
  ledgerTable_perform h table (.getEntity table key)

theorem records_eq (id : String) :
    stores.records table id = ((stores.ledgerTable table).bind (·.get? (historyKey id))).isSome := by
  rw [records, (lookup_ledgerTable h table (historyKey id)).1]
  cases stores.ledgerTable table with
  | none => rfl
  | some rows =>
    rcases hr : rows.get? (historyKey id) with _ | row <;> simp only [hr, Option.bind_some] <;> rfl

/-- A record that is new is written, and nothing else changes in the ledger's table. -/
theorem record_ledgerTable {rows : Rows} (ht : stores.ledgerTable table = some rows) {id : String}
    (hn : rows.get? (historyKey id) = none) :
    (stores.perform .ledger (recordCall table (historyRecord id))).1 = .ok () ∧
      (stores.perform .ledger (recordCall table (historyRecord id))).2.ledgerTable table =
        some (rows.insert (historyKey id) (historyRecord id)) := by
  obtain ⟨hanswer, hafter⟩ := ledgerTable_perform h table (recordCall table (historyRecord id))
  have hwrite : Rows.writeAll rows [⟨.add, historyRecord id⟩] =
      some (rows.insert (historyKey id) (historyRecord id)) := by
    show (Rows.write rows .add (historyRecord id)).bind _ = _
    have hn : rows.get? (historyRecord id).key = none := hn
    rw [Rows.write, hn]; rfl
  have hsubmit := MemoryStore.submitBatch_of_some (checkBatch_record id) ht hwrite
  constructor
  · exact hanswer.trans (congrArg Prod.fst hsubmit)
  · rw [hafter, show TableStore.perform stores.view.ledger (recordCall table (historyRecord id)) = _ from hsubmit]
    exact MemoryStore.get?_withRows_self _ _ _

theorem record_known {rows : Rows} (ht : stores.ledgerTable table = some rows) {id : String}
    (hn : rows.get? (historyKey id) ≠ none) :
    (stores.perform .ledger (recordCall table (historyRecord id))).1 =
        .error (.batchRejected 0 (.conflict table (historyKey id))) ∧
      (stores.perform .ledger (recordCall table (historyRecord id))).2.ledgerTable table = some rows := by
  obtain ⟨hanswer, hafter⟩ := ledgerTable_perform h table (recordCall table (historyRecord id))
  obtain ⟨row, hr⟩ := Option.ne_none_iff_exists'.mp hn
  have hadd : MemoryStore.applyAction table rows ⟨.add, historyRecord id⟩ =
      .error (.conflict table (historyKey id)) := by
    have hr : rows.get? (historyRecord id).key = some row := hr
    rw [MemoryStore.applyAction, hr]; rfl
  have hsubmit : TableStore.perform stores.view.ledger (recordCall table (historyRecord id)) =
      (.error (.batchRejected 0 (.conflict table (historyKey id))), stores.view.ledger) := by
    show stores.view.ledger.submitBatch table _ _ = _
    have ht : stores.view.ledger.tables.get? table = some rows := ht
    simp only [MemoryStore.submitBatch_eq, checkBatch_record, ht, applyActions, hadd]
  constructor
  · exact hanswer.trans (congrArg Prod.fst hsubmit)
  · rw [hafter, hsubmit]
    exact ht

/-- A data call about another table leaves the ledger's alone, and so does any data call where the ledger is apart. -/
theorem data_ledgerTable {c : Call} (hc : stores.isShared = true → c.table ≠ table) :
    (stores.perform .data c).2.ledgerTable table = stores.ledgerTable table := by
  rw [ledgerTable, perform_view h]
  cases stores with
  | shared s => exact MemoryStore.perform_frame _ c (Ne.symm (hc rfl))
  | separate s l => rfl

end

theorem replay_ledgerTable {stores : Stores σ η} (h : stores.Reachable) (table : String) (cond : Conditions)
    (made : Nat) {calls : List (Target × Call)}
    (hc : ∀ x ∈ calls, x.1 = .data ∧ (stores.isShared = true → x.2.table ≠ table)) :
    (stores.replay cond made calls).ledgerTable table = stores.ledgerTable table := by
  induction calls generalizing stores made with
  | nil => rfl
  | cons x r ih =>
    obtain ⟨target, c⟩ := x
    obtain ⟨⟨rfl, hx⟩, hr⟩ := List.forall_mem_cons.mp hc
    obtain ⟨-, -, hreach⟩ := performUnder_view h cond made .data c
    have hrest : ∀ x ∈ r, x.1 = .data ∧
        ((performUnder cond made stores .data c).2.isShared = true → x.2.table ≠ table) := by
      intro x hx
      rw [isShared_performUnder]; exact hr x hx
    rw [Stores.replay, ih hreach (made + 1) hrest]
    unfold performUnder
    cases cond.fault (made + 1) with
    | some e => rfl
    | none => exact data_ledgerTable h table hx

end Stores

/-- Operations that leave the ledger alone: where it shares a store with the migrated tables, none names its table. -/
def LeavesLedger {σ η : Type} (stores : Stores σ η) (table : String) (ops : List Operation) : Prop :=
  stores.isShared = true → ∀ op ∈ ops, op.table ≠ table

theorem ledgerTable_execute {σ η : Type} [TableStore σ] [TableStore η] [MemoryLike σ] [MemoryLike η]
    (cond : Conditions) (limits : Limits) {ops : List Operation} {stores : Stores σ η} (h : stores.Reachable)
    {table : String} (ho : LeavesLedger stores table ops) :
    (execute cond limits ops stores).stores.ledgerTable table = stores.ledgerTable table := by
  have hstores : (execute cond limits ops stores).stores =
      stores.replay cond 0 (execute cond limits ops stores).calls :=
    follow_stores (fun _ _ => .error .notFound) cond _ ⟨0, stores, Execution.start limits ops⟩
  rw [hstores]
  apply Stores.replay_ledgerTable h table cond 0
  intro x hx
  obtain ⟨hdata, htable⟩ := mem_execute_calls hx
  obtain ⟨op, hop, he⟩ := List.mem_map.mp htable
  refine ⟨hdata, ?_⟩
  intro hs
  rw [← he]; exact ho hs op hop

end TableMigrations
