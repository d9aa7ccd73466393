/-
  TableMigrations.Proofs.LastStep — how a plan ends, and where that leaves an execution after its last call.

  A plan ends with a scan if and only if the operations that are carried out last end with a patch of every row
  (`lastOf_planSteps`). If there are rows to go through, the execution has still to find after its last call that it
  is done; after any other last step there is nothing left (`plan_arrival`).
-/
import TableMigrations.Proofs.Execution

namespace TableMigrations

/-! ## the last step of a plan -/

def lastOf {α : Type} (f : α → Option String) (d : Option String) (l : List α) : Option String := l.getLast?.elim d f

theorem lastOf_cons {α : Type} (f : α → Option String) (d : Option String) (a : α) (l : List α) :
    lastOf f d (a :: l) = lastOf f (f a) l := by
  rw [lastOf, lastOf, List.getLast?_cons]
  cases l.getLast? <;> rfl

theorem lastOf_append {α : Type} (f : α → Option String) (d : Option String) (l r : List α) :
    lastOf f d (l ++ r) = lastOf f (lastOf f d l) r := by
  rw [lastOf, lastOf, lastOf, List.getLast?_append]
  cases r.getLast? <;> rfl

def Step.scanned : Step → Option String
  | .scan pager _ => some pager.table
  | .prepare _ | .drop _ | .recreate _ | .submit _ => none

def Change.patched (table : String) : Change → Option String
  | .updateAll _ => some table
  | .row .. | .deleteAll => none

/-- The table whose operations are carried out last, if they end with a patch of its every row. -/
def patchedLast (ops : List Operation) : Option String :=
  lastOf (fun g : TableGroup => lastOf (Change.patched g.table) none g.changes) none (groupByTable ops)

theorem lastOf_submitSteps (d : Option String) (table : String) (actions : List BatchAction) (limits : Limits) :
    lastOf Step.scanned d (submitSteps table actions limits) = if actions = [] then d else none := by
  have hsubmits : ∀ batches : List Batch, lastOf Step.scanned none (batches.map .submit) = none := by
    intro batches
    induction batches with
    | nil => rfl
    | cons b r ih => rw [List.map_cons, lastOf_cons]; exact ih
  have hperm := perm_chunkByPartition table actions limits.batch
  rw [submitSteps]
  rcases hbatches : chunkByPartition table actions limits.batch with _ | ⟨b, r⟩
  · rw [hbatches] at hperm
    rw [if_pos hperm.symm.eq_nil]; rfl
  · have hne : actions ≠ [] := by
      intro he
      subst he
      cases hbatches
    rw [if_neg hne, List.map_cons, lastOf_cons]
    exact hsubmits r

theorem lastOf_changeSteps (limits : Limits) (d : Option String) (table : String) (gathered : List BatchAction)
    (changes : List Change) :
    lastOf Step.scanned d (changeSteps limits table gathered changes) =
      lastOf (Change.patched table) (if gathered = [] then d else none) changes := by
  induction changes generalizing d gathered with
  | nil => exact lastOf_submitSteps d table gathered limits
  | cons c r ih =>
    rw [lastOf_cons]
    cases c with
    | row kind e =>
      rw [changeSteps_row, ih, if_neg (List.append_ne_nil_of_right_ne_nil _ (List.cons_ne_nil _ _))]; rfl
    | deleteAll =>
      rw [changeSteps, lastOf_cons, lastOf_cons, ih]
      exact congrArg (lastOf _ · r) (ite_self none)
    | updateAll patch => rw [changeSteps, lastOf_append, lastOf_cons, ih, if_pos rfl]; rfl

/-- A plan ends with a scan if and only if the operations end with a patch of every row. -/
theorem lastOf_planSteps (limits : Limits) (ops : List Operation) :
    lastOf Step.scanned none (planSteps limits ops) = patchedLast ops := by
  have hgroups : ∀ (groups : List TableGroup) (d : Option String),
      lastOf Step.scanned d (groups.flatMap (·.steps limits)) =
        lastOf (fun g : TableGroup => lastOf (Change.patched g.table) none g.changes) d groups := by
    intro groups
    induction groups with
    | nil => intro d; rfl
    | cons g r ih =>
      intro d
      rw [List.flatMap_cons, lastOf_append, ih, lastOf_cons, TableGroup.steps, lastOf_cons, lastOf_changeSteps,
        if_pos rfl]
      rfl
  exact hgroups (groupByTable ops) none

/-! ## how an execution ends -/

/-- Whether operations that have led to these tables ended by going through rows. -/
def EndsInScan (ops : List Operation) (s : MemoryStore) : Prop :=
  ∃ t, patchedLast ops = some t ∧ (s.rowsOf t).entries ≠ []

namespace Execution

theorem pages_iff (s : MemoryStore) (step : Step) :
    Pages s step ↔ ∃ t, step.scanned = some t ∧ (s.rowsOf t).entries ≠ [] := by
  cases step with
  | scan pager patch =>
    constructor
    · intro h
      exact ⟨_, rfl, h⟩
    · rintro ⟨t, ht, h⟩
      cases ht
      exact h
  | prepare t | drop t | recreate t | submit b =>
    constructor
    · intro h; cases h
    · rintro ⟨t, ht, -⟩; cases ht

theorem pages_effect {s after : MemoryStore} {step : Step} (he : step.effect s = some after) :
    Pages after step ↔ Pages s step := by
  cases step with
  | scan pager patch =>
    obtain ⟨rows, ht, rfl⟩ := Option.map_eq_some_iff.mp he
    simp only [Pages, MemoryStore.rowsOf_eq ht, MemoryStore.rowsOf_eq (s.get?_withRows_self pager.table _)]
    exact not_congr List.map_eq_nil_iff
  | prepare t | drop t | recreate t => exact Iff.rfl
  | submit b => exact Iff.rfl

variable {η : Type} [TableStore η] {limits : Limits} {stores : Stores MemoryStore η} {ops : List Operation}
  {after : MemoryStore}

/-- A plan that the store takes has no steps, or ends with a call, or ends with a scan that has rows and so is found at
    its end after the last call. -/
theorem plan_arrival (files : FileReader MemoryStore) (made : Nat) (hl : limits.Sound) (hw : stores.data.WellFiled)
    (he : effects stores.data (planSteps limits ops) = some after) :
    (planSteps limits ops = [] ∧ after = stores.data ∧ ¬ EndsInScan ops after) ∨
      ∃ n calls made' stats, (¬ EndsInScan ops after ∧ ByCall files .calm n ⟨made, stores, start limits ops⟩ calls
          (config limits made' (stores.withData after) [] stats)) ∨
        (EndsInScan ops after ∧ ∃ pager patch, pager.exhausted = true ∧
          ByCall files .calm n ⟨made, stores, start limits ops⟩ calls
            (config limits made' (stores.withData after) [.scan pager patch] stats)) := by
  have hlast := lastOf_planSteps limits ops
  rcases List.eq_nil_or_concat (planSteps limits ops) with hplan | ⟨init, last, hplan⟩
  · rw [hplan] at he hlast
    cases he
    refine Or.inl ⟨hplan, rfl, ?_⟩
    rintro ⟨t, ht, -⟩
    cases hlast.trans ht
  · rw [List.concat_eq_append] at hplan
    have hscan : EndsInScan ops after ↔ Pages after last := by
      rw [EndsInScan, pages_iff, ← hlast, hplan, lastOf_append, lastOf_cons]; rfl
    rw [hplan, effects_append] at he
    obtain ⟨mid, hm, he⟩ := Option.bind_eq_some_iff.mp he
    have he : last.effect mid = some after := by
      rw [effects_cons] at he
      obtain ⟨_, hlast, hnil⟩ := Option.bind_eq_some_iff.mp he
      cases hnil; exact hlast
    have hfresh : ∀ step ∈ init ++ [last], step.Fresh limits := by
      intro step hs
      rw [← hplan] at hs
      exact fresh_planSteps hs
    have hwm : mid.WellFiled := effects_wellFiled hw hm
    obtain ⟨n, -, calls, made₁, stats₁, h₁⟩ := agenda_path files made .zero [last] hl hw
      (fun step hs => hfresh step (List.mem_append_left _ hs)) (Nat.le_refl _) hm
    rw [← hplan] at h₁
    have hfreshLast : last.Fresh limits := hfresh last (List.mem_append_right _ List.mem_cons_self)
    rw [← stores.data_withData mid] at he hwm
    by_cases hp : Pages (stores.withData mid).data last
    · obtain ⟨m, -, calls', made₂, stats₂, pager, patch, hx, h₂⟩ := byCall_pages hl hwm hfreshLast hp he
      rw [stores.withData_withData] at h₂
      have hends : EndsInScan ops after := hscan.mpr ((pages_effect he).mpr hp)
      exact Or.inr ⟨_, _, made₂, stats₂, Or.inr ⟨hends, pager, patch, hx, h₁.byCall h₂⟩⟩
    · obtain ⟨x, stats₂, ht⟩ := transition_step hfreshLast hp he
      rw [stores.withData_withData] at ht
      have hends : ¬ EndsInScan ops after := by
        intro hs
        exact hp ((pages_effect he).mp (hscan.mp hs))
      exact Or.inr ⟨_, _, made₁ + 1, stats₂, Or.inl ⟨hends, h₁.byCall ht.byCall⟩⟩

end Execution

end TableMigrations
