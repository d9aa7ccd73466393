/-
  TableMigrations.Proofs.Cancellation — what being cancelled does to a run, and what it does not.

  A cancelled run makes the calls that it would have made anyway, up to where it stops, and its stores are what these
  calls leave. After the call that it is cancelled at it makes at most one more, the record of the migration that it
  has been applying (`follow_late`).
-/
import TableMigrations.Proofs.Turns

namespace TableMigrations

/-! ## calls after the cancellation -/

/-- Calls that end in the record of the migration in progress: since it was looked up, only the data store has been
    called. -/
def EndInRecord (options : Options) (migrations : List MigrationFile) (calls : List (Target × Call)) : Prop :=
  ∃ m ∈ migrations, ∃ before work, calls = before ++ options.lookup m.id :: (work ++ [options.record m.id]) ∧
    ∀ x ∈ work, x.1 = .data

section

variable {fault : Nat → Option StoreError} {k : Nat} {options : Options} {migrations : List MigrationFile}

theorem cancelled_at (hf : ∀ j, 0 < j → j ≤ k → fault j = none) :
    Conditions.cancelled ⟨some k, fault⟩ k = true := by
  simp only [Conditions.cancelled, Nat.le_refl, decide_true, Bool.true_and, Bool.or_eq_true, beq_iff_eq]
  by_cases hk : k = 0
  · exact Or.inl hk
  · have hnone : fault k = none := hf k (by omega) (by omega)
    right
    rw [hnone]
    rfl

theorem cancelled_mono {cond : Conditions} {made later : Nat} (h : made ≤ later) (hc : cond.cancelled made = true) :
    cond.cancelled later = true := by
  simp only [Conditions.cancelled] at hc ⊢
  rcases hn : cond.cancelAfter with _ | n
  · simp only [hn] at hc
    cases hc
  · simp only [hn, Bool.and_eq_true, decide_eq_true_eq] at hc ⊢
    exact ⟨Nat.le_trans hc.1 h, hc.2⟩

/-- The call of a run that stands cancelled is the record of the migration in progress. -/
theorem endInRecord_of_call {r : Run} {calls : List (Target × Call)} (h : Run.Traced options migrations calls r)
    {target : Target} {c : Call} {resume : Except StoreError c.Result → Except MigrateError Run}
    (hn : r.next = .call false target c resume) : EndInRecord options migrations (calls ++ [(target, c)]) := by
  obtain ⟨id, x, hs, hc, -⟩ := Run.next_unguarded hn
  obtain ⟨hoptions, -, hstage⟩ := h
  rw [hs] at hstage
  obtain ⟨m, hm, rfl, before, work, rfl, hwork⟩ := hstage
  rw [hc, hoptions]
  exact ⟨m, hm, before, work, by simp, hwork⟩

variable {σ η : Type} [TableStore σ] [TableStore η] {files : FileReader σ}

theorem calls_choosing {cond : Conditions} {a : Config σ η Run} (hs : a.state.stage = .choosing)
    (hc : cond.cancelled a.made = true) (fuel : Nat) : (a.follow files cond fuel).calls = [] := by
  cases fuel with
  | zero => rfl
  | succ fuel =>
    have hturn := Run.turn a.state
    rcases hn : a.state.next with o | go | ⟨guarded, target, c, resume⟩ | ⟨path, resume⟩
    · have he : Ends files cond a [] a.stores o := .done hn
      rw [he.follow_succ]
    all_goals rw [hn] at hturn
    · cases hturn with
      | pausing hs' => cases hs.symm.trans hs'
    · cases guarded with
      | true => rw [(Ends.withheld hn (by rw [hc]; rfl)).follow_succ]
      | false =>
        obtain ⟨id, x, hs', -⟩ := Run.next_unguarded hn
        cases hs.symm.trans hs'
    · cases hturn with
      | reading hs' => cases hs.symm.trans hs'

/-- A run that is cancelled after `k` calls makes no more of them, but for the record of the migration in progress. -/
theorem follow_late {fuel : Nat} {a : Config σ η Run} {calls : List (Target × Call)}
    (hl : calls.length = a.made) (hk : a.made ≤ k) (hf : ∀ j, 0 < j → j ≤ a.made → fault j = none)
    (h : Run.Traced options migrations calls a.state) :
    (calls ++ (a.follow files ⟨some k, fault⟩ fuel).calls).length ≤ k ∨
      ((calls ++ (a.follow files ⟨some k, fault⟩ fuel).calls).length = k + 1 ∧
        EndInRecord options migrations (calls ++ (a.follow files ⟨some k, fault⟩ fuel).calls)) := by
  induction fuel generalizing a calls with
  | zero => exact Or.inl (by simpa [Config.follow, follow, hl] using hk)
  | succ fuel ih =>
    rcases transition_or_ends files ⟨some k, fault⟩ a with ⟨l, b, ht⟩ | ⟨l, s, o, he⟩
    · rw [ht.follow_succ]
      show (calls ++ (l ++ (b.follow files ⟨some k, fault⟩ fuel).calls)).length ≤ k ∨
        ((calls ++ (l ++ (b.follow files ⟨some k, fault⟩ fuel).calls)).length = k + 1 ∧
          EndInRecord options migrations (calls ++ (l ++ (b.follow files ⟨some k, fault⟩ fuel).calls)))
      rw [← List.append_assoc]
      have hb := Run.traced_transition h ht
      cases ht with
      | checkpoint hn hc => exact ih (by rwa [List.append_nil]) hk hf hb
      | read hn hr => exact ih (by rwa [List.append_nil]) hk hf hb
      | @call guarded target c resume p hn hc hr =>
        have hlength : (calls ++ [(target, c)]).length = a.made + 1 := by simp [hl]
        rcases Nat.lt_or_eq_of_le hk with hlt | rfl
        · have ht : Transition files ⟨some k, fault⟩ a [(target, c)] _ := .call hn hc hr
          refine ih hlength hlt ?_ hb
          intro j hj hj'
          by_cases hlast : j = a.made + 1
          · subst hlast
            exact Run.fault_eq_none ht
          · have hle : j ≤ a.made := by
              have : j ≤ a.made + 1 := hj'
              omega
            exact hf j hj hle
        · have hcancelled := cancelled_at hf
          rw [hcancelled, Bool.and_true] at hc
          subst hc
          obtain ⟨id, x, -, -, hchoosing⟩ := Run.next_unguarded hn
          rw [calls_choosing (hchoosing hr) (cancelled_mono (Nat.le_succ _) hcancelled), List.append_nil]
          exact Or.inr ⟨hlength, endInRecord_of_call h hn⟩
    · rw [he.follow_succ]
      cases he with
      | done | stopped | withheld | unreadable =>
        left
        rw [List.append_nil, hl]
        exact hk
      | @refused guarded target c resume e hn hc hr =>
        have hlength : (calls ++ [(target, c)]).length = a.made + 1 := by simp [hl]
        rcases Nat.lt_or_eq_of_le hk with hlt | rfl
        · left
          rw [hlength]
          exact hlt
        · rw [cancelled_at hf, Bool.and_true] at hc
          subst hc
          exact Or.inr ⟨hlength, endInRecord_of_call h hn⟩

/-! ## cancelled runs -/

/-- What calls leave does not depend on when they would be cancelled. -/
theorem replay_spared (cond : Conditions) (made : Nat) (stores : Stores σ η) (calls : List (Target × Call)) :
    stores.replay cond made calls = stores.replay cond.spared made calls := by
  induction calls generalizing made stores with
  | nil => rfl
  | cons x r ih => exact ih (made + 1) (performUnder cond made stores x.1 x.2).2

variable [MemoryLike σ] [MemoryLike η]

/-- A run that is cancelled right after a number of calls, whatever calls fail, makes the first of those that it would
    make without, at most so many, or one more if that is the record of the migration in progress. The stores are left
    as these calls leave them. It ends as cancelled or exactly as it would end without. -/
theorem run_cancelled (text : String → Except FileError String) (fault : Nat → Option StoreError) (k : Nat)
    (options : Options) (migrations : List MigrationFile) {stores : Stores σ η} (h : stores.Reachable) :
    let c := run (fun _ => text) ⟨some k, fault⟩ options migrations stores
    let u := run (fun _ => text) ⟨none, fault⟩ options migrations stores
    c.calls <+: u.calls ∧
      (c.calls.length ≤ k ∨ (c.calls.length = k + 1 ∧ EndInRecord options migrations c.calls)) ∧
      c.stores = stores.replay ⟨none, fault⟩ 0 c.calls ∧
      c.outcome ≠ none ∧ (c.outcome = some (.error .cancelled) ∨ c = u) := by
  intro c u
  have hstores : c.stores = stores.replay ⟨some k, fault⟩ 0 c.calls :=
    follow_stores (fun _ => text) ⟨some k, fault⟩ _ ⟨0, stores, Run.start options migrations⟩
  have hlate : ([] ++ c.calls).length ≤ k ∨
      (([] ++ c.calls).length = k + 1 ∧ EndInRecord options migrations ([] ++ c.calls)) :=
    follow_late (a := ⟨0, stores, Run.start options migrations⟩) rfl (Nat.zero_le k)
      (by intro j hj hj'; exact absurd hj (Nat.not_lt.mpr hj')) (Run.traced_start options migrations)
  have hspared : c.stores = stores.replay ⟨none, fault⟩ 0 c.calls :=
    hstores.trans (replay_spared _ 0 stores c.calls)
  have hends : c.outcome ≠ none := run_ends_under text ⟨some k, fault⟩ options migrations h
  have hstopped : c = u ∨ (c.outcome = some (.error .cancelled) ∧ c.calls <+: u.calls) :=
    follow_cancelled (fun _ => text) ⟨some k, fault⟩ _ ⟨0, stores, Run.start options migrations⟩
  rcases hstopped with heq | ⟨hcancelled, hinitial⟩
  · have hinitial : c.calls <+: u.calls := by rw [heq]
    exact ⟨hinitial, hlate, hspared, hends, Or.inr heq⟩
  · exact ⟨hinitial, hlate, hspared, hends, Or.inl hcancelled⟩

end

/-- Cancelled after the last call of its only migration's execution, a run still makes one call more. -/
theorem run_cancelledBeforeRecord :
    (Stores.shared MemoryStore.empty : Stores MemoryStore MemoryStore).Reachable ∧
      (run (fun _ _ => .ok "INSERT t p r") ⟨some 4, fun _ => none⟩ .default [⟨"1", "1.mig", "migrations/1.mig"⟩]
        (.shared .empty : Stores MemoryStore MemoryStore)).calls.length = 5 ∧
      EndInRecord .default [⟨"1", "1.mig", "migrations/1.mig"⟩]
        (run (fun _ _ => .ok "INSERT t p r") ⟨some 4, fun _ => none⟩ .default [⟨"1", "1.mig", "migrations/1.mig"⟩]
          (.shared .empty : Stores MemoryStore MemoryStore)).calls := by
  have hr : (Stores.shared MemoryStore.empty : Stores MemoryStore MemoryStore).Reachable := ReachableFrom.refl
  obtain ⟨-, hcalls, -⟩ := run_cancelled (fun _ => .ok "INSERT t p r") (fun _ => none) 4 .default
    [⟨"1", "1.mig", "migrations/1.mig"⟩] hr
  exact ⟨hr, hcalls.resolve_left (by decide +kernel)⟩

end TableMigrations
