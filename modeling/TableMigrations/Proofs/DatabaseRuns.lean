/-
  TableMigrations.Proofs.DatabaseRuns — a run on a database is a run on a memory store.

  What is proved of runs on memory stores holds of databases in use, on any engine that does what engines are documented
  to do. Calls are answered alike as far as the pages that they ask for can be fetched (`answerAlike_match`), and a run
  asks for no pages but those of the size that is set, whatever the rows are that it is answered with
  (`Execution.confined_fits`).
-/
import TableMigrations.Proofs.Addressing
import TableMigrations.Proofs.Agreement

namespace TableMigrations

/-! ## the pages of a run -/

def Step.Fits : Step → Prop
  | .scan pager _ => pager.pageSize + 1 < int64Half
  | .prepare _ | .drop _ | .recreate _ | .submit _ => True

theorem fits_submitSteps {limits : Limits} {table : String} {actions : List BatchAction} {step : Step}
    (h : step ∈ submitSteps table actions limits) : step.Fits := by
  obtain ⟨b, -, rfl⟩ := List.mem_map.mp h
  trivial

theorem fits_planSteps {limits : Limits} (hl : limits.page + 1 < int64Half) {ops : List Operation} {step : Step}
    (h : step ∈ planSteps limits ops) : step.Fits := by
  have hmax : max limits.page 1 + 1 < int64Half := by
    have : int64Half = 2 ^ 63 := by decide
    omega
  obtain ⟨t, -, hs⟩ := serves_planSteps h
  cases hs with
  | scan => exact hmax
  | prepare | drop | recreate | submit => trivial

namespace Execution

/-- The pages that remain to be asked for can be fetched from any table. -/
def Fits (e : Execution) : Prop := ∀ step ∈ e.agenda, step.Fits

theorem fits_receivePage {e : Execution} {pager : Pager} {patch : Patch} {page : EntityPage} {rest : List Step}
    (hp : pager.pageSize + 1 < int64Half) (hr : ∀ step ∈ rest, step.Fits) :
    (e.receivePage pager patch page rest).Fits := by
  intro step hs
  simp only [receivePage, Pager.receive] at hs
  split at hs
  · exact hr step hs
  · rename_i heq
    obtain ⟨-, rfl⟩ := Prod.mk.inj heq
    rcases List.mem_append.mp hs with hs | hs
    · exact fits_submitSteps hs
    · rcases List.mem_cons.mp hs with rfl | hs
      · exact hp
      · exact hr step hs

theorem confined_fits : Confined Fits fun c => ∀ m, c.Fits m := by
  rintro ⟨limits, agenda, stats⟩ h
  cases agenda with
  | nil => exact Or.inl ⟨stats, rfl⟩
  | cons step r =>
    obtain ⟨hs, hr⟩ := List.forall_mem_cons.mp h
    cases step with
    | prepare t | drop t | recreate t => exact Or.inr (Or.inr ⟨_, _, rfl, fun _ => trivial, fun _ => hr⟩)
    | submit b => exact Or.inr (Or.inr ⟨_, _, rfl, fun _ => trivial, fun _ => hr⟩)
    | scan pager patch =>
      rcases hx : pager.exhausted with _ | _
      · exact Or.inr (Or.inr ⟨_, _, next_scan hx, fun _ => Or.inl hs, fun _ => fits_receivePage hs hr⟩)
      · exact Or.inr (Or.inl ⟨_, next_exhausted hx, hr⟩)

end Execution

theorem Asked.fits {options : Options} {x : Target × Call} (h : Asked options (fun c => ∀ m, c.Fits m) x)
    (m : MemoryStore) : x.2.Fits m := by
  cases h with
  | ensure | lookup | record => trivial
  | data hc => exact hc m

/-! ## how many rows a database has -/

namespace SqliteStore

variable {E : Engine} {D : E.Documented} {path : Option String} {d : SqliteStore E}

theorem toNat_ofNat {n : Nat} (h : n < int64Half) : (Int64.ofNat n).toUInt64.toNat = n := by
  have hhalf : int64Half = 2 ^ 63 := by decide
  show n % 2 ^ 64 = n
  omega

theorem does_rowCount {r : Relations} {table : String}
    (h : (r.rows.entries.filter (·.1.table == table)).length < int64Half) :
    Does D path (.idle r) (rowCount table) (.ok (r.rows.entries.filter (·.1.table == table)).length) (.idle r) := by
  refine .bind (serves_idle D path r (.countRows table)) ?_
  simp only [Statement.answer, toNat_ofNat h]
  exact .pure _

theorem does_countAll {r : Relations}
    (h : ∀ table, (r.rows.entries.filter (·.1.table == table)).length < int64Half) :
    Does D path (.idle r) countAll
      (.ok (r.names.keys.map fun table => (r.rows.entries.filter (·.1.table == table)).length).sum) (.idle r) := by
  have hcounts : List.Forall₂ (fun table n => Does D path (.idle r) (rowCount table) (.ok n) (.idle r)) r.names.keys
      (r.names.keys.map fun table => (r.rows.entries.filter (·.1.table == table)).length) :=
    List.forall₂_map_right_iff.mpr (List.forall₂_same.mpr fun table _ => does_rowCount (h table))
  exact .bind (serves_idle D path r .selectNames) (.bind (.mapM hcounts) (.pure _))

/-- A database counts as many rows as there are, as long as its integers can say how many. -/
theorem Matches.rowTotal {m : MemoryStore} (h : d.Matches D path m) (hm : TableStore.rowTotal m < int64Half) :
    TableStore.rowTotal d = TableStore.rowTotal m := by
  obtain ⟨r, s, hd, he, hs, rfl⟩ := h
  have hlength : ∀ table, (r.rows.entries.filter (·.1.table == table)).length =
      (s.rows.entries.filter (·.1.table == table)).length := by
    intro table
    simpa using congrArg List.length (he.decode_filter fun a => a.table == table)
  rw [← DurableStore.rowTotal_view hs] at hm ⊢
  have hcount : ∀ table, (r.rows.entries.filter (·.1.table == table)).length < int64Half := by
    intro table
    rw [hlength]
    exact Nat.lt_of_le_of_lt (List.length_filter_le _ _) hm
  have hcounted : Does D path (.idle r) countAll _ (.idle r) := does_countAll hcount
  obtain ⟨c, hon, -⟩ := hcounted.run hd
  have htotal : TableStore.rowTotal d =
      (r.names.keys.map fun table => (r.rows.entries.filter (·.1.table == table)).length).sum := by
    simp only [TableStore.rowTotal, SqliteStore.on, hon]
  rw [htotal, ← hs.rowTotal, he.names]
  simp only [hlength]
  rfl

end SqliteStore

/-! ## stores that match -/

/-- Databases, and the memory stores that have come from empty ones in the same way. -/
inductive Stores.Match {E : Engine} (D : E.Documented) (path ledgerPath : Option String) :
    Stores (SqliteStore E) (SqliteStore E) → Stores MemoryStore MemoryStore → Prop
  | shared {d : SqliteStore E} {m : MemoryStore} (h : d.Matches D path m) :
      Match D path ledgerPath (.shared d) (.shared m)
  | separate {d l : SqliteStore E} {m n : MemoryStore} (hd : d.Matches D path m) (hl : l.Matches D ledgerPath n) :
      Match D path ledgerPath (.separate d l) (.separate m n)

section

variable {E : Engine} {D : E.Documented} {path ledgerPath : Option String}

theorem SqliteStore.Matches.perform {d : SqliteStore E} {m : MemoryStore} (h : d.Matches D path m) {c : Call}
    (hfit : c.Fits m) :
    (TableStore.perform d c).1 = (TableStore.perform m c).1 ∧
      (TableStore.perform d c).2.Matches D path (TableStore.perform m c).2 :=
  h.request (r := .call c) hfit

theorem answerAlike_match : AnswerAlike (Stores.Match D path ledgerPath) fun x => ∀ m, x.2.Fits m := by
  intro s s' h target c hfit
  cases h with
  | shared h =>
    obtain ⟨hanswer, hafter⟩ := h.perform (hfit _)
    exact ⟨hanswer, .shared hafter⟩
  | separate hd hl =>
    cases target with
    | data =>
      obtain ⟨hanswer, hafter⟩ := hd.perform (hfit _)
      exact ⟨hanswer, .separate hafter hl⟩
    | ledger =>
      obtain ⟨hanswer, hafter⟩ := hl.perform (hfit _)
      exact ⟨hanswer, .separate hd hafter⟩

theorem Stores.Match.data {s : Stores (SqliteStore E) (SqliteStore E)} {s' : Stores MemoryStore MemoryStore}
    (h : s.Match D path ledgerPath s') : s.data.Matches D path s'.data := by
  cases h with
  | shared h => exact h
  | separate hd hl => exact hd

theorem Stores.Match.rowTotal {s : Stores (SqliteStore E) (SqliteStore E)} {s' : Stores MemoryStore MemoryStore}
    (h : s.Match D path ledgerPath s') (hs : s'.rowTotal < int64Half) : s.rowTotal = s'.rowTotal := by
  cases h with
  | shared h => exact h.rowTotal hs
  | @separate d l m n hd hl =>
    have hs : TableStore.rowTotal m + TableStore.rowTotal n < int64Half := hs
    show TableStore.rowTotal d + TableStore.rowTotal l = TableStore.rowTotal m + TableStore.rowTotal n
    rw [hd.rowTotal (by omega), hl.rowTotal (by omega)]

/-! ## runs on databases -/

/-- A run on databases makes the same calls as the run on the memory stores that match them, and ends alike. -/
theorem run_match {s : Stores (SqliteStore E) (SqliteStore E)} {s' : Stores MemoryStore MemoryStore}
    (h : s.Match D path ledgerPath s') (hs : s'.rowTotal < int64Half) (text : String → Except FileError String)
    (cond : Conditions) {options : Options} (hp : options.pageSize + 1 < int64Half) (migrations : List MigrationFile) :
    let c := run (fun _ => text) cond options migrations s
    let c' := run (fun _ => text) cond options migrations s'
    c.calls = c'.calls ∧ c.outcome = c'.outcome ∧ c.stores.Match D path ledgerPath c'.stores := by
  have hlimits : options.limits.page + 1 < int64Half := by
    have : int64Half = 2 ^ 63 := by decide
    simp only [Options.limits, Limits.within]
    omega
  have hstart : ∀ m ∈ migrations, ∀ ops, m.operations (text m.path) = .ok ops →
      (Execution.start options.limits ops).Fits := fun _ _ _ _ _ hstep => fits_planSteps hlimits hstep
  unfold run
  rw [h.rowTotal hs]
  refine follow_alike answerAlike_match text cond (I := Run.Holds Execution.Fits options migrations) ?_ ?_ _
    (a := ⟨0, s, Run.start options migrations⟩) h (Run.holds_start _ options migrations)
  · intro p guarded target c resume hi hn
    exact (hi.asked Execution.confined_fits hn).fits
  · intro a b l hi ht
    exact hi.transition Execution.confined_fits hstart ht

/-- There is a memory store with the tables of a database in use, and whatever befalls a run on the one, it makes the
    same calls on the other, ends alike and leaves the same tables. This is so while rows can be counted, and pages be
    fetched, in integers of 64 bits. -/
theorem run_on_database {d : SqliteStore E} (h : d.InUse D path) :
    ∃ m : MemoryStore, ReachableFrom .empty m ∧ d.HasTablesOf D path m ∧
      (TableStore.rowTotal m < int64Half → ∀ (text : String → Except FileError String) (cond : Conditions)
        (options : Options) (migrations : List MigrationFile), options.pageSize + 1 < int64Half →
          let c := run (fun _ => text) cond options migrations (.shared d : Stores (SqliteStore E) (SqliteStore E))
          let c' := run (fun _ => text) cond options migrations (.shared m : Stores MemoryStore MemoryStore)
          c.calls = c'.calls ∧ c.outcome = c'.outcome ∧ c.stores.data.HasTablesOf D path c'.stores.data) := by
  obtain ⟨r, s, hd, he, hs⟩ := h.holds
  have hmatches : d.Matches D path s.view := ⟨r, s, hd, he, DurableStore.registered_of_reachable hs, rfl⟩
  refine ⟨s.view, MemoryLike.view_reachable hs, hmatches.hasTablesOf, ?_⟩
  intro hrows text cond options migrations hp
  have hmatch : (Stores.shared d).Match D path none (.shared s.view) := .shared hmatches
  obtain ⟨hcalls, houtcome, hstores⟩ := run_match hmatch hrows text cond hp migrations
  exact ⟨hcalls, houtcome, hstores.data.hasTablesOf⟩

end

end TableMigrations
