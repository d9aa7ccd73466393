/-
  TableMigrations.Proofs.Retry — a run that was interrupted is made good by running again.

  Migrations of upserts and emptyings may be interrupted anywhere, as often as it happens. A run under any conditions
  leaves its stores as some first calls of the calm run do (`Run.follow_under`). If these end inside a migration's turn
  the turn starts over and leaves what it would have left (`visit_resumed`); those before are found recorded. So after
  each interruption a calm run still comes to the same stores (`run_resumed`), and that is so after all of them.
-/
import TableMigrations.Proofs.Calls
import TableMigrations.Proofs.Rerun
import TableMigrations.Proofs.Upserts

namespace TableMigrations

/-- A migration that may be taken up again after an interruption: all that it asks for is repeatable, and it leaves the
    ledger alone. -/
def Repeatable {σ η : Type} [TableStore σ] [TableStore η] (text : String → Except FileError String)
    (stores : Stores σ η) (table : String) (m : MigrationFile) : Prop :=
  ∃ ops, m.operations (text m.path) = .ok ops ∧ (∀ op ∈ ops, op.change.isRepeatable = true) ∧
    LeavesLedger stores table ops

section

variable {σ η σ' η' : Type} [TableStore σ] [TableStore η] [TableStore σ'] [TableStore η']
  {text : String → Except FileError String} {stores : Stores σ η} {table : String} {m : MigrationFile}

theorem Repeatable.unobtrusive (h : Repeatable text stores table m) : Unobtrusive text stores table m := by
  obtain ⟨ops, hops, -, hl⟩ := h
  intro ops' hops'
  cases hops.symm.trans hops'
  exact hl

theorem Repeatable.of_isShared {stores' : Stores σ' η'} (h : Repeatable text stores table m)
    (hs : stores'.isShared = stores.isShared) : Repeatable text stores' table m := by
  obtain ⟨ops, hops, hr, hl⟩ := h
  exact ⟨ops, hops, hr, fun hshared => hl (hs ▸ hshared)⟩

end

section

variable {text : String → Except FileError String} {options : Options} {stores : Stores MemoryStore MemoryStore}
  (h : stores.Reachable)

include h

/-! ## a migration's turn -/

variable (ht : stores.ledgerTable options.historyTable ≠ none)

include ht

theorem visit_unrecorded {m : MigrationFile} (hu : stores.records options.historyTable m.id = false)
    {ops : List Operation} (hops : m.operations (text m.path) = .ok ops)
    (hl : LeavesLedger stores options.historyTable ops) {work : List (Target × Call)} {after : MemoryStore}
    {stats : Stats} (hx : execute .calm options.limits ops stores = ⟨work, stores.withData after, some (.ok stats)⟩) :
    visit text options stores m =
      ⟨options.lookup m.id :: work ++ [options.record m.id],
        ((stores.withData after).perform .ledger (options.record m.id).2).2, some (.ok true)⟩ := by
  obtain ⟨rows, hrows⟩ := Option.ne_none_iff_exists'.mp ht
  have hnone : rows.get? (historyKey m.id) = none := by
    rw [records_of_ledgerTable h hrows] at hu
    exact Option.isNone_iff_eq_none.mp (Option.isSome_eq_false_iff.mp hu)
  have hreach := (execute_view .calm options.limits ops h).2
  have hledger := ledgerTable_execute .calm options.limits h hl
  rw [hx] at hreach hledger
  have hrecord := (Stores.record_ledgerTable hreach options.historyTable (hledger.trans hrows) hnone).1
  simp only [visit, lookup_unrecorded h ht hu, hops, applyAndRecord, hx, hrecord]
  rfl

omit ht in
/-- The lookup of a migration and some of the calls of its operations leave a store that the operations leave alike. -/
theorem replay_started {ops : List Operation} (hr : ∀ op ∈ ops, op.change.isRepeatable = true)
    {work : List (Target × Call)} (hp : ∀ x ∈ work, x.1 = .data ∧ Planned ops x.2) {id : String}
    {l : List (Target × Call)} (hl : l <+: options.lookup id :: work) (made : Nat) :
    ∃ s, stores.replay .calm made l = stores.withData s ∧ s.WellFiled ∧ Alike ops s stores.data := by
  have hw := Stores.wellFiled h
  rcases List.prefix_cons_iff.mp hl with rfl | ⟨done, rfl, hdone⟩
  · exact ⟨stores.data, stores.withData_data.symm, hw, .refl ops stores.data⟩
  · have hlookup : (performUnder .calm made stores .ledger (options.lookup id).2).2 = stores :=
      Stores.perform_read h .ledger rfl
    obtain ⟨s, hs, hsame⟩ := replay_planned hr hw (fun x hx => hp x (hdone.subset hx)) (made + 1)
    exact ⟨s, by rw [Stores.replay, hlookup, hs], hsame⟩

/-- A migration's turn that starts over after any of its calls leaves what it would have left. -/
theorem visit_resumed {m : MigrationFile} (hr : Repeatable text stores options.historyTable m)
    {l : List (Target × Call)} (hl : l <+: (visit text options stores m).calls) (made : Nat) :
    (∃ applied, (visit text options (stores.replay .calm made l) m).outcome = some (.ok applied)) ∧
      (visit text options (stores.replay .calm made l) m).stores = (visit text options stores m).stores := by
  have hreach := h.replay .calm made l
  have horderly : ∀ x ∈ l, Orderly options stores.isShared x := by
    intro x hx
    exact (mem_visit_calls (hl.subset hx)).orderly hr.unobtrusive
  obtain ⟨hpresent, hrecords⟩ := records_replay h ht horderly made
  -- once it is recorded, it is skipped
  have hskipped : (stores.replay .calm made l).records options.historyTable m.id = true →
      stores.replay .calm made l = (visit text options stores m).stores →
      (∃ applied, (visit text options (stores.replay .calm made l) m).outcome = some (.ok applied)) ∧
        (visit text options (stores.replay .calm made l) m).stores = (visit text options stores m).stores := by
    intro hrecorded hstores
    rw [visit_recorded hreach hrecorded]
    exact ⟨⟨false, rfl⟩, hstores⟩
  rcases hu : stores.records options.historyTable m.id with _ | _
  · obtain ⟨ops, hops, hrepeatable, hleaves⟩ := hr
    have hlimits : options.limits.Sound := Limits.within_sound _ _
    have hw := Stores.wellFiled h
    obtain ⟨work, final, stats, hx, -⟩ := execute_repeatable hrepeatable hlimits hw
    have hvisit := visit_unrecorded h ht hu hops hleaves hx
    have hplanned : ∀ x ∈ work, x.1 = .data ∧ Planned ops x.2 := by
      intro x hmem
      have hcall : x ∈ (execute .calm options.limits ops stores).calls := by rw [hx]; exact hmem
      exact planned_of_mem_execute hrepeatable hcall
    rw [hvisit, List.prefix_concat_iff] at hl
    rcases hl with rfl | hl
    · -- the whole turn has been taken
      apply hskipped
      · rw [hrecords]
        exact Or.inr (by simp)
      · rw [visit_stores, hvisit]
        exact Stores.replay_calm made 0 stores _
    · obtain ⟨s, hs, hfiled, halike⟩ := replay_started h hrepeatable hplanned hl made
      obtain ⟨after, ⟨work₁, stats₁, hx₁⟩, work₂, stats₂, hx₂⟩ := execute_alike hrepeatable hlimits hw hfiled halike
      have hu' : (stores.replay .calm made l).records options.historyTable m.id = false := by
        rw [Bool.eq_false_iff, ne_eq, hrecords, hu]
        rintro (hfalse | hmem)
        · cases hfalse
        · rcases List.mem_cons.mp (hl.subset hmem) with he | hmem
          · cases he
          · cases (hplanned _ hmem).1
      have hleaves' : LeavesLedger (stores.replay .calm made l) options.historyTable ops := by
        intro hshared
        rw [isShared_replay] at hshared
        exact hleaves hshared
      rw [hs] at hreach hpresent hu' hleaves' ⊢
      rw [← stores.withData_withData s after] at hx₂
      rw [visit_unrecorded hreach hpresent hu' hops hleaves' hx₂, visit_unrecorded h ht hu hops hleaves hx₁,
        stores.withData_withData]
      exact ⟨⟨true, rfl⟩, rfl⟩
  · -- it was recorded before, so it has been looked up at most
    apply hskipped ((hrecords _).mpr (Or.inl hu))
    have hvisit : visit text options stores m = _ := visit_recorded h hu
    rw [hvisit] at hl ⊢
    rcases List.prefix_cons_iff.mp hl with rfl | ⟨done, rfl, hdone⟩
    · rfl
    · rw [List.prefix_nil.mp hdone]
      exact Stores.perform_read h .ledger rfl

/-! ## migrations one after another -/

/-- Migrations that are gone through again after any of their calls end well, and leave what they would have left. -/
theorem account_resumed {migrations : List MigrationFile}
    (hr : ∀ m ∈ migrations, Repeatable text stores options.historyTable m) (summary summary' : Summary)
    {l : List (Target × Call)} (hl : l <+: (account text options migrations summary stores).calls) (made : Nat) :
    (∃ s, (account text options migrations summary' (stores.replay .calm made l)).outcome = some (.ok s)) ∧
      (account text options migrations summary' (stores.replay .calm made l)).stores =
        (account text options migrations summary stores).stores := by
  induction migrations generalizing stores summary summary' l made with
  | nil =>
    rw [List.prefix_nil.mp hl]
    exact ⟨⟨summary', rfl⟩, rfl⟩
  | cons m r ih =>
    obtain ⟨hm, hrest⟩ := List.forall_mem_cons.mp hr
    obtain ⟨⟨applied, ho⟩, -⟩ := visit_resumed h ht hm (List.nil_prefix) 0
    have ho : (visit text options stores m).outcome = some (.ok applied) := ho
    have hreach := (visit_ends text options m h).1
    obtain ⟨hpresent, hshared, ⟨-, hrecorded⟩ | ⟨-, cause, hfails, -⟩⟩ := visit_cases h ht (fun _ => hm.unobtrusive)
    · have hrest : ∀ m' ∈ r, Repeatable text (visit text options stores m).stores options.historyTable m' := by
        intro m' hm'
        exact (hrest m' hm').of_isShared hshared
      have hcons : account text options (m :: r) summary stores =
          (account text options r (summary.add m.id applied) (visit text options stores m).stores).after
            (visit text options stores m).calls := by
        simp only [account, ho]
      rw [hcons] at hl ⊢
      rcases List.prefix_or_prefix_of_prefix hl (List.prefix_append _ _) with hturn | ⟨done, rfl⟩
      · -- the turn starts over, and the rest is gone through as if for the first time
        obtain ⟨⟨again, ho'⟩, hs⟩ := visit_resumed h ht hm hturn made
        simp only [account, ho', hs]
        exact ih hreach hpresent hrest (summary.add m.id applied) (summary'.add m.id again) List.nil_prefix 0
      · -- the turn has been taken, so the migration is skipped and the rest taken up where it was
        have hdone := (List.prefix_append_right_inj _).mp hl
        have hstores : stores.replay .calm made ((visit text options stores m).calls ++ done) =
            (visit text options stores m).stores.replay .calm 0 done := by
          rw [Stores.replay_append, Stores.replay_calm made 0, ← visit_stores]
          exact Stores.replay_calm _ 0 _ done
        have horderly : ∀ x ∈ done, Orderly options (visit text options stores m).stores.isShared x := by
          intro x hx
          exact orderly_account (fun m' hm' => (hrest m' hm').unobtrusive) x (hdone.subset hx)
        have hfound := (records_replay hreach hpresent horderly 0).2 m.id
        have hskip : visit text options _ m = _ := visit_recorded (hreach.replay .calm 0 done)
          (hfound.mpr (Or.inl ((hrecorded m.id).mpr (Or.inr List.mem_cons_self))))
        rw [hstores]
        simp only [account, hskip]
        exact ih hreach hpresent hrest (summary.add m.id applied) (summary'.add m.id false) hdone 0
    · cases hfails.symm.trans ho

end

/-! ## runs -/

section

variable {text : String → Except FileError String} {options : Options} {migrations : List MigrationFile}

/-- A run that starts over after any of its calls succeeds, and leaves what it would have left. -/
theorem run_resumed {stores : Stores MemoryStore MemoryStore} (h : stores.Reachable)
    (hr : ∀ m ∈ migrations, Repeatable text stores options.historyTable m) {l : List (Target × Call)}
    (hl : l <+: (run (fun _ => text) .calm options migrations stores).calls) :
    (∃ summary, (run (fun _ => text) .calm options migrations (stores.replay .calm 0 l)).outcome =
        some (.ok summary)) ∧
      (run (fun _ => text) .calm options migrations (stores.replay .calm 0 l)).stores =
        (run (fun _ => text) .calm options migrations stores).stores := by
  have hreach := h.replay .calm 0 l
  rw [run_eq_turns text options migrations h] at hl ⊢
  rw [run_eq_turns text options migrations hreach]
  by_cases hempty : migrations = []
  · rw [if_pos hempty] at hl
    rw [if_pos hempty, if_pos hempty, List.prefix_nil.mp hl]
    exact ⟨⟨_, rfl⟩, rfl⟩
  · rw [if_neg hempty] at hl
    rw [if_neg hempty, if_neg hempty]
    obtain ⟨opened, ho⟩ : ∃ opened, opened = (stores.perform .ledger (.ensureTable options.historyTable)).2 := ⟨_, rfl⟩
    have hopened : opened.Reachable := ho ▸ h.perform .ledger (.ensureTable options.historyTable)
    have hpresent : opened.ledgerTable options.historyTable ≠ none := by
      rw [ho, (Stores.ensure_ledgerTable h options.historyTable).2]
      simp
    have hshared : opened.isShared = stores.isShared := by rw [ho, Stores.isShared_perform]
    have hr : ∀ m ∈ migrations, Repeatable text opened options.historyTable m := by
      intro m hm
      exact (hr m hm).of_isShared hshared
    rw [turns, turns, ← ho]
    -- the ledger's table is there once it has been made sure of
    obtain ⟨done, hdone, hagain⟩ : ∃ done, done <+: (account text options migrations ⟨[], []⟩ opened).calls ∧
        ((stores.replay .calm 0 l).perform .ledger (.ensureTable options.historyTable)).2 =
          opened.replay .calm 1 done := by
      rw [turns, ← ho] at hl
      rcases List.prefix_cons_iff.mp hl with rfl | ⟨done, rfl, hdone⟩
      · exact ⟨[], List.nil_prefix, ho.symm⟩
      · have horderly : ∀ x ∈ done, Orderly options opened.isShared x := by
          intro x hx
          exact orderly_account (fun m hm => (hr m hm).unobtrusive) x (hdone.subset hx)
        have hthere := (records_replay hopened hpresent horderly 1).1
        have hstores : stores.replay .calm 0 ((.ledger, .ensureTable options.historyTable) :: done) =
            opened.replay .calm 1 done := by
          rw [ho]
          rfl
        rw [hstores]
        exact ⟨done, hdone, Stores.ensure_present (hopened.replay .calm 1 done) _ hthere⟩
    rw [hagain]
    exact account_resumed hopened hpresent hr ⟨[], []⟩ ⟨[], []⟩ hdone 1

variable {σ η : Type} [TableStore σ] [TableStore η] [MemoryLike σ] [MemoryLike η] {stores : Stores σ η}
  (h : stores.Reachable) (hr : ∀ m ∈ migrations, Repeatable text stores options.historyTable m)

include h hr

theorem run_undisturbed : ∃ summary, (run (fun _ => text) .calm options migrations stores).outcome = some (.ok summary) := by
  have hr : ∀ m ∈ migrations, Repeatable text stores.view options.historyTable m := by
    intro m hm
    exact (hr m hm).of_isShared stores.isShared_view
  obtain ⟨⟨summary, hok⟩, -⟩ := run_resumed (Stores.view_reachable h) hr List.nil_prefix
  exact ⟨summary, (congrArg Course.outcome (run_view text .calm options migrations h)).trans hok⟩

variable [Transparent σ] [Transparent η]

/-- After an interruption a run leaves what it would have left without. -/
theorem stores_interrupted (cond : Conditions) :
    (run (fun _ => text) .calm options migrations (run (fun _ => text) cond options migrations stores).stores).stores =
      (run (fun _ => text) .calm options migrations stores).stores := by
  have hafter := run_reachable text cond options migrations h
  apply Stores.eq_of_view (run_reachable text .calm options migrations hafter)
    (run_reachable text .calm options migrations h)
  have hr : ∀ m ∈ migrations, Repeatable text stores.view options.historyTable m := by
    intro m hm
    exact (hr m hm).of_isShared stores.isShared_view
  have hview : ∀ cond {s : Stores σ η}, s.Reachable → (run (fun _ => text) cond options migrations s).stores.view =
      (run (fun _ => text) cond options migrations s.view).stores := by
    intro cond s hs
    exact congrArg Course.stores (run_view text cond options migrations hs)
  obtain ⟨l, hl, hs⟩ : ∃ l, l <+: (run (fun _ => text) .calm options migrations stores.view).calls ∧
      (run (fun _ => text) cond options migrations stores.view).stores = stores.view.replay .calm 0 l :=
    Run.follow_under (a := ⟨0, stores.view, Run.start options migrations⟩) cond _
  rw [hview .calm hafter, hview cond h, hview .calm h, hs]
  exact (run_resumed (Stores.view_reachable h) hr hl).2

/-- Interrupted runs are made good by running again. Where all that the migrations ask for is upserts and emptyings of
    tables other than the ledger's, and any number of runs have been interrupted, each by a cancellation after any call
    or by the failure of any, a run that is not interrupted succeeds and leaves the stores exactly as it would have left
    them in the first place. -/
theorem run_interrupted (interruptions : List Conditions) :
    let interrupted := interruptions.foldl (fun s cond => (run (fun _ => text) cond options migrations s).stores) stores
    (∃ summary, (run (fun _ => text) .calm options migrations interrupted).outcome = some (.ok summary)) ∧
      (run (fun _ => text) .calm options migrations interrupted).stores =
        (run (fun _ => text) .calm options migrations stores).stores := by
  induction interruptions generalizing stores with
  | nil => exact ⟨run_undisturbed h hr, rfl⟩
  | cons cond rest ih =>
    have hafter := run_reachable text cond options migrations h
    have hr' : ∀ m ∈ migrations, Repeatable text (run (fun _ => text) cond options migrations stores).stores
        options.historyTable m := by
      intro m hm
      exact (hr m hm).of_isShared (isShared_run text cond options migrations stores)
    obtain ⟨hok, hs⟩ := ih hafter hr'
    exact ⟨hok, hs.trans (stores_interrupted h hr cond)⟩

end

/-! ## two interruptions -/

/-- The first of two migrations writes a row, empties the table and writes another; the second adds to the first row. -/
def refillText (path : String) : Except FileError String :=
  .ok (if path = "m/1.mig" then "UPSERTM t p r a|1|NUMBER\nDELETE t *\nUPSERTR t q r" else "UPSERTM t p r b|2|NUMBER")

def refillRun (cond : Conditions) (stores : Stores MemoryStore MemoryStore) : Course MemoryStore MemoryStore Summary :=
  run (fun _ => refillText) cond (.ofDirectory "m") [⟨"1", "1.mig", "m/1.mig"⟩, ⟨"2", "2.mig", "m/2.mig"⟩] stores

/-- The first run is cancelled when it has deleted the table, and in the second the record of a migration that has been
    carried out fails. The third run makes up for both. -/
theorem refill_interrupted :
    let cancelled : Conditions := ⟨some 4, fun _ => none⟩
    let unrecorded : Conditions := ⟨none, fun n => if n = 8 then some .lockPoisoned else none⟩
    let stores : Stores MemoryStore MemoryStore := .shared .empty
    let first := refillRun cancelled stores
    let second := refillRun unrecorded first.stores
    stores.Reachable ∧
      (∀ m ∈ [(⟨"1", "1.mig", "m/1.mig"⟩ : MigrationFile), ⟨"2", "2.mig", "m/2.mig"⟩],
        Repeatable refillText stores "MigrationHistories" m) ∧
      first.outcome = some (.error .cancelled) ∧ first.stores.data.rowCount "t" = none ∧
      second.outcome = some (.error (.migration "1" (.store .lockPoisoned))) ∧
      second.stores.data.rowCount "t" = some 2 ∧
      (∃ summary, (refillRun .calm second.stores).outcome = some (.ok summary)) ∧
      (refillRun .calm second.stores).stores = (refillRun .calm stores).stores := by
  intro cancelled unrecorded stores first second
  have hr : stores.Reachable := ReachableFrom.refl
  have hrepeatable : ∀ m ∈ [(⟨"1", "1.mig", "m/1.mig"⟩ : MigrationFile), ⟨"2", "2.mig", "m/2.mig"⟩],
      Repeatable refillText stores (Options.ofDirectory "m").historyTable m := by
    intro m hm
    simp only [List.mem_cons, List.not_mem_nil, or_false] at hm
    rcases hm with rfl | rfl
    · exact ⟨[⟨"t", .row .upsertMerge ⟨⟨"p", "r"⟩, .ofList [("a", .int64 1)]⟩⟩, ⟨"t", .deleteAll⟩,
        ⟨"t", .row .upsertReplace (.bare ⟨"q", "r"⟩)⟩], rfl, by decide, fun _ => by decide⟩
    · exact ⟨[⟨"t", .row .upsertMerge ⟨⟨"p", "r"⟩, .ofList [("b", .int64 2)]⟩⟩], rfl, by decide, fun _ => by decide⟩
  obtain ⟨hok, hstores⟩ := run_interrupted hr hrepeatable [cancelled, unrecorded]
  exact ⟨hr, hrepeatable, by decide +kernel, by decide +kernel, by decide +kernel, by decide +kernel, hok, hstores⟩

end TableMigrations
