/-
  TableMigrations.Proofs.Recording — whether a migration that has been carried out is recorded by a cancelled run.

  It is not where its last step went through the rows of a table and the run is cancelled right after the last call of
  that: a scan looks at cancellation once more at its end (`run_cancelled_recorded_iff`). After any other last step and
  at any later time the record is written.
-/
import TableMigrations.Proofs.Calls
import TableMigrations.Proofs.Cancellation
import TableMigrations.Proofs.LastStep

namespace TableMigrations

/-! ## the migration that is recorded -/

section

variable {σ η : Type} [TableStore σ] [TableStore η] {text : String → Except FileError String} {options : Options}

theorem eq_of_record {id j : String} (h : options.record id = options.record j) : id = j := by cases h; rfl

theorem CallFor.id_eq {m : MigrationFile} {id : String} (h : CallFor text options m (options.record id)) :
    id = m.id := by
  rcases h with h | h | ⟨ops, -, h, -⟩
  · cases h
  · exact eq_of_record h
  · cases h

/-- A migration's turn records it where it finds no record and its execution succeeds. -/
theorem visit_recording {stores : Stores σ η} {m : MigrationFile} {id : String}
    (hx : options.record id ∈ (visit text options stores m).calls) :
    ∃ after ops stats, stores.perform .ledger (options.lookup m.id).2 = (.ok none, after) ∧
      m.operations (text m.path) = .ok ops ∧ (execute .calm options.limits ops after).outcome = some (.ok stats) := by
  have hwork : ∀ {ops : List Operation} {after : Stores σ η},
      options.record id ∉ (execute .calm options.limits ops after).calls := by
    intro ops after hx
    cases (mem_execute_calls hx).1
  simp only [visit, Course.after, List.cons_append, List.nil_append, List.mem_cons] at hx
  rcases hx with hx | hx
  · cases hx
  rcases hp : stores.perform .ledger (.getEntity options.historyTable (historyKey m.id)) with ⟨e | _ | row, after⟩
  · simp only [hp] at hx; cases hx
  · rcases hops : m.operations (text m.path) with e | ops
    · simp only [hp, hops] at hx; cases hx
    · simp only [hp, hops, applyAndRecord] at hx
      rcases ho : (execute .calm options.limits ops after).outcome with _ | e | stats
      · simp only [ho] at hx; exact absurd hx hwork
      · simp only [ho] at hx; exact absurd hx hwork
      · exact ⟨after, ops, stats, rfl, rfl, ho⟩
  · simp only [hp] at hx; cases hx

theorem record_of_turns {migrations : List MigrationFile} {stores : Stores σ η} {id : String}
    (hx : options.record id ∈ (turns text options migrations stores).calls) :
    options.record id ∈ (account text options migrations ⟨[], []⟩
      (stores.perform .ledger (.ensureTable options.historyTable)).2).calls := by
  rcases List.mem_cons.mp hx with hx | hx
  · cases hx
  · exact hx

/-- Migrations one after another come to a migration that they record. -/
theorem account_recording {migrations : List MigrationFile} {summary : Summary} {stores : Stores σ η} {id : String}
    (hx : options.record id ∈ (account text options migrations summary stores).calls) :
    ∃ before m after s, migrations = before ++ m :: after ∧ m.id = id ∧
      (account text options before summary stores).outcome = some (.ok s) ∧
      options.record id ∈ (visit text options (account text options before summary stores).stores m).calls := by
  induction migrations generalizing summary stores with
  | nil => cases hx
  | cons m r ih =>
    have hturn : options.record id ∈ (visit text options stores m).calls → ∃ before m' after s,
        m :: r = before ++ m' :: after ∧ m'.id = id ∧
        (account text options before summary stores).outcome = some (.ok s) ∧
        options.record id ∈ (visit text options (account text options before summary stores).stores m').calls := by
      intro hx
      exact ⟨[], m, r, summary, rfl, (mem_visit_calls hx).id_eq.symm, rfl, hx⟩
    rcases ho : (visit text options stores m).outcome with _ | e | applied
    · simp only [account, ho] at hx; exact hturn hx
    · simp only [account, ho] at hx; exact hturn hx
    · simp only [account, ho, Course.after, List.mem_append] at hx
      rcases hx with hx | hx
      · exact hturn hx
      · obtain ⟨before, m', after, s, rfl, hid, hs, hx⟩ := ih hx
        refine ⟨m :: before, m', after, s, rfl, hid, ?_, ?_⟩
        · simp only [account, ho]; exact hs
        · simp only [account, ho]; exact hx

end

/-! ## the way to a record -/

section

variable {σ η : Type} [TableStore σ] [TableStore η] [MemoryLike σ] [MemoryLike η]
  {text : String → Except FileError String} {options : Options}

/-- Migrations that all end well lead a run to those after them. -/
theorem account_path (before rest : List MigrationFile) (summary : Summary) {stores : Stores σ η} (h : stores.Reachable)
    (made : Nat) {s : Summary} (ho : (account text options before summary stores).outcome = some (.ok s)) :
    ∃ n made', Path (fun _ => text) .calm n ⟨made, stores, (⟨options, .choosing, before ++ rest, summary⟩ : Run)⟩
      (account text options before summary stores).calls
      ⟨made', (account text options before summary stores).stores, ⟨options, .choosing, rest, s⟩⟩ := by
  induction before generalizing summary stores made with
  | nil => cases ho; exact ⟨0, made, .refl _⟩
  | cons m r ih =>
    obtain ⟨hreach, ⟨e, he⟩ | ⟨applied, hok, -⟩⟩ := visit_ends text options m h
    · simp only [account, he] at ho; cases ho
    · simp only [account, hok] at ho ⊢
      obtain ⟨n, -, made₁, h₁⟩ := visit_ok h (Nat.le_refl _) summary (r ++ rest) made hok
      obtain ⟨n', made₂, h₂⟩ := ih (summary.add m.id applied) hreach made₁ ho
      exact ⟨n + n', made₂, h₁.trans h₂⟩

theorem start_byCall {before : List MigrationFile} (rest : List MigrationFile) {m : MigrationFile}
    {stores after : Stores σ η} (h : stores.Reachable) {s : Summary}
    (ho : (turns text options before stores).outcome = some (.ok s))
    (hp : (turns text options before stores).stores.perform .ledger (options.lookup m.id).2 = (.ok none, after)) :
    ∃ n made, ByCall (fun _ => text) .calm n ⟨0, stores, Run.start options (before ++ m :: rest)⟩
      ((turns text options before stores).calls ++ [options.lookup m.id])
      ⟨made, after, ⟨options, .reading m, rest, s⟩⟩ := by
  have hopen := Path.single (transition_opening (fun _ => text) options h
    (List.append_ne_nil_of_right_ne_nil before (List.cons_ne_nil m rest)))
  obtain ⟨n, made, hpath⟩ := account_path before (m :: rest) ⟨[], []⟩ (h.perform .ledger _) 1 ho
  exact ⟨_, _, .last (hopen.trans hpath) (transition_reading s rest made hp)⟩

end

/-! ## cancelled on the way -/

/-- Cancelled right after `k` calls, and otherwise undisturbed. -/
abbrev Conditions.after (k : Nat) : Conditions := ⟨some k, fun _ => none⟩

theorem cancelled_before {k made : Nat} (h : made < k) : (Conditions.after k).cancelled made = false := by
  simp only [Conditions.cancelled, Bool.and_eq_false_iff, decide_eq_false_iff_not]
  left; omega

section

variable {text : String → Except FileError String} {options : Options} {stores : Stores MemoryStore MemoryStore}

/-- By these calls a run comes to `b`, unless it is cancelled before the last of them. -/
def Reached (text : String → Except FileError String) (options : Options) (migrations : List MigrationFile)
    (stores : Stores MemoryStore MemoryStore) (calls : List (Target × Call)) (b : Config MemoryStore MemoryStore Run) :
    Prop :=
  ∀ cond : Conditions, cond.fault = Conditions.calm.fault → (∀ made < calls.length, cond.cancelled made = false) →
    ∃ n, Path (fun _ => text) cond n ⟨0, stores, Run.start options migrations⟩ calls b

theorem ByCall.reached {migrations : List MigrationFile} {n : Nat} {calls : List (Target × Call)}
    {b : Config MemoryStore MemoryStore Run}
    (h : ByCall (fun _ => text) .calm n ⟨0, stores, Run.start options migrations⟩ calls b) :
    Reached text options migrations stores calls b := by
  intro cond hf hc
  have hmade : b.made = 0 + calls.length := h.path.made_eq
  refine ⟨n, (h.under hf ?_).path⟩
  intro made _ hm
  exact hc made (by omega)

/-- A run that has made calls from its start and is about to record a migration, in `d`. The last of the calls has led
    it to `b`, which is `d` unless its operations end by going through rows: then it is still to find that they have. -/
structure Arrival (text : String → Except FileError String) (options : Options) (migrations : List MigrationFile)
    (stores : Stores MemoryStore MemoryStore) (id : String) (ops : List Operation) (calls : List (Target × Call))
    (b d : Config MemoryStore MemoryStore Run) : Prop where
  reached : Reached text options migrations stores calls b
  next : d.state.next = .call false .ledger (options.record id).2 (d.state.recorded id)
  last : ¬ EndsInScan ops d.stores.data ∧ b = d ∨
    EndsInScan ops d.stores.data ∧ b.state.next = .checkpoint d.state ∧ d = ⟨b.made, b.stores, d.state⟩

section

variable {migrations : List MigrationFile} {id : String} {ops : List Operation} {calls : List (Target × Call)} {r : Run}
  {x : Config MemoryStore MemoryStore Execution}

/-- An execution that has come to its end has the record written next. -/
theorem arrival_of_done {stats : Stats} (hr : r.options = options)
    (h : Reached text options migrations stores calls (r.applying id x)) (hn : x.state.next = .done (.ok stats))
    (hends : ¬ EndsInScan ops x.stores.data) :
    Arrival text options migrations stores id ops calls (r.applying id x) (r.applying id x) := by
  subst hr
  exact ⟨h, r.next_applying_done id hn, Or.inl ⟨hends, rfl⟩⟩

/-- An execution that has come to the end of its last scan looks at cancellation before. -/
theorem arrival_of_exhausted {limits : Limits} {made : Nat} {after : Stores MemoryStore MemoryStore} {stats : Stats}
    {pager : Pager} {patch : Patch} (hr : r.options = options) (hx : pager.exhausted = true)
    (h : Reached text options migrations stores calls
      (r.applying id (Execution.config limits made after [.scan pager patch] stats)))
    (hends : EndsInScan ops after.data) :
    Arrival text options migrations stores id ops calls
      (r.applying id (Execution.config limits made after [.scan pager patch] stats))
      (r.applying id (Execution.config limits made after [] stats)) := by
  subst hr
  have hnext : Run.next (r.applying id (Execution.config limits made after [.scan pager patch] stats)).state =
      .checkpoint (r.applying id (Execution.config limits made after [] stats)).state := by
    simp only [Run.next, Run.applying, Execution.next_exhausted hx]
  exact ⟨h, r.next_applying_done id rfl, Or.inr ⟨hends, hnext, rfl⟩⟩

end

theorem ByCall.executing {a : Config MemoryStore MemoryStore Run} {n n' made : Nat} {calls work : List (Target × Call)}
    {after : Stores MemoryStore MemoryStore} {m : MigrationFile} {rest : List MigrationFile} {s : Summary}
    {ops : List Operation} {files : FileReader MemoryStore} {x : Config MemoryStore MemoryStore Execution}
    (h : ByCall (fun _ => text) .calm n a calls ⟨made, after, (⟨options, .reading m, rest, s⟩ : Run)⟩)
    (hops : m.operations (text m.path) = .ok ops)
    (hx : ByCall files .calm n' ⟨made, after, .start options.limits ops⟩ work x) :
    ByCall (fun _ => text) .calm (n + 1 + n') a (calls ++ work)
      (Run.applying ⟨options, .choosing, rest, s⟩ m.id x) := by
  have := (h.path.trans (.single (transition_read .calm after s rest made hops))).byCall
    (hx.applying (fun _ => text) ⟨options, .choosing, rest, s⟩ m.id)
  rwa [List.append_nil] at this

theorem data_of_byCall {files : FileReader MemoryStore} {n made : Nat} {limits : Limits} {ops : List Operation}
    {work : List (Target × Call)} {x : Config MemoryStore MemoryStore Execution}
    (h : ByCall files .calm n ⟨made, stores, .start limits ops⟩ work x) : ∀ call ∈ work, call.1 = .data := by
  intro call hcall
  exact ((Execution.confined_about _).path (Execution.about_start limits ops) h.path call hcall).1

/-- Before its record is written, a migration's execution has come to its end, or to the end of a scan. -/
theorem exists_arrival {before : List MigrationFile} (rest : List MigrationFile) {m : MigrationFile}
    (h : stores.Reachable) {s : Summary} (ho : (turns text options before stores).outcome = some (.ok s))
    (hx : options.record m.id ∈ (visit text options (turns text options before stores).stores m).calls) :
    ∃ ops work b d, m.operations (text m.path) = .ok ops ∧ (∀ x ∈ work, x.1 = .data) ∧
      Arrival text options (before ++ m :: rest) stores m.id ops
        ((turns text options before stores).calls ++ options.lookup m.id :: work) b d := by
  obtain ⟨after, ops, stats, hp, hops, hexec⟩ := visit_recording hx
  obtain ⟨n, made, hstart⟩ := start_byCall rest h ho hp
  have hreach : after.Reachable := by
    have hturns := (account_ends text options before ⟨[], []⟩ (h.perform .ledger (.ensureTable options.historyTable))).1
    have hlookup := hturns.perform .ledger (options.lookup m.id).2
    rw [show (account text options before ⟨[], []⟩ _).stores.perform .ledger _ = _ from hp] at hlookup
    exact hlookup
  have hl : options.limits.Sound := Limits.within_sound _ _
  have hw : after.data.WellFiled := Stores.wellFiled hreach
  obtain ⟨final, he⟩ : ∃ final, effects after.data (planSteps options.limits ops) = some final := by
    rcases execute_effects hl hw ops with ⟨final, -, -, he, -⟩ | ⟨-, calls, last, e, hx⟩
    · exact ⟨final, he⟩
    · rw [hx] at hexec; cases hexec
  rcases Execution.plan_arrival (fun _ _ => .error .notFound) made hl hw he with
    ⟨hplan, rfl, hends⟩ | ⟨n', work, made', stats', ⟨hends, h'⟩ | ⟨hends, pager, patch, hx, h'⟩⟩
  · -- nothing to carry out: the last call is the lookup
    have hnext : (Execution.start options.limits ops).next = .done (.ok .zero) := by
      show Execution.next ⟨options.limits, planSteps options.limits ops, .zero⟩ = _
      rw [hplan]; rfl
    have hreached : Reached text options (before ++ m :: rest) stores
        ((turns text options before stores).calls ++ [options.lookup m.id])
        (Run.applying ⟨options, .choosing, rest, s⟩ m.id ⟨made, after, .start options.limits ops⟩) := by
      intro cond hf hc
      obtain ⟨n, hpath⟩ := hstart.reached cond hf hc
      have := hpath.trans (.single (transition_read cond after s rest made hops))
      rw [List.append_nil] at this
      exact ⟨_, this⟩
    exact ⟨ops, [], _, _, hops, by simp, arrival_of_done rfl hreached hnext hends⟩
  · -- the last step is a call
    have hrun := hstart.executing hops h'
    rw [List.append_assoc, List.singleton_append] at hrun
    rw [← after.data_withData final] at hends
    exact ⟨ops, work, _, _, hops, data_of_byCall h', arrival_of_done rfl hrun.reached rfl hends⟩
  · -- the last step is a scan, whose end is found after its last call
    have hrun := hstart.executing hops h'
    rw [List.append_assoc, List.singleton_append] at hrun
    rw [← after.data_withData final] at hends
    exact ⟨ops, work, _, _, hops, data_of_byCall h', arrival_of_exhausted rfl hx hrun.reached hends⟩

end

section

variable {σ η : Type} [TableStore σ] [TableStore η] {files : FileReader σ} {cond : Conditions} {options : Options}

theorem follow_record {d : Config σ η Run} {id : String} {fuel : Nat}
    (hn : d.state.next = .call false .ledger (options.record id).2 (d.state.recorded id))
    (ho : (d.follow files cond fuel).outcome ≠ none) :
    ∃ post, (d.follow files cond fuel).calls = options.record id :: post := by
  cases fuel with
  | zero => exact absurd rfl ho
  | succ fuel =>
    rcases hr : d.state.recorded id (performUnder cond d.made d.stores .ledger (options.record id).2).1 with e | p
    · have he : Ends files cond d [options.record id] _ (.error e : Except MigrateError Summary) := .refused hn rfl hr
      exact ⟨[], by rw [he.follow_succ]⟩
    · have ht : Transition files cond d [options.record id] _ := .call hn rfl hr
      exact ⟨_, by rw [ht.follow_succ]; rfl⟩

end

section

variable {text : String → Except FileError String} {options : Options} {migrations : List MigrationFile}
  {stores : Stores MemoryStore MemoryStore} {id : String} {ops : List Operation} {calls : List (Target × Call)}
  {b d : Config MemoryStore MemoryStore Run} (hr : stores.Reachable)

section

include hr

theorem calls_of_path {cond : Conditions} {n : Nat}
    (hp : Path (fun _ => text) cond n ⟨0, stores, Run.start options migrations⟩ calls d)
    (hn : d.state.next = .call false .ledger (options.record id).2 (d.state.recorded id)) :
    ∃ post, (run (fun _ => text) cond options migrations stores).calls = calls ++ options.record id :: post := by
  have hended : (run (fun _ => text) cond options migrations stores).outcome ≠ none :=
    run_ends_under text cond options migrations hr
  obtain ⟨k, hk, ho⟩ := hp.follow_ended hended
  obtain ⟨post, hpost⟩ := follow_record hn ho
  refine ⟨post, ?_⟩
  rw [← hpost]
  exact congrArg Course.calls hk

/-- Where it is cancelled at the end of a scan, a run makes no further call. -/
theorem calls_of_stopped {cond : Conditions} {n : Nat} {go : Run}
    (hp : Path (fun _ => text) cond n ⟨0, stores, Run.start options migrations⟩ calls b)
    (hn : b.state.next = .checkpoint go) (hc : cond.cancelled b.made = true) :
    (run (fun _ => text) cond options migrations stores).calls = calls := by
  have hended : (run (fun _ => text) cond options migrations stores).outcome ≠ none :=
    run_ends_under text cond options migrations hr
  obtain ⟨k, hk, ho⟩ := hp.follow_ended hended
  have he : Ends (fun _ => text) cond b [] b.stores (.error .cancelled : Except MigrateError Summary) := .stopped hn hc
  cases k with
  | zero => exact absurd rfl ho
  | succ k =>
    rw [he.follow_succ] at hk
    exact (congrArg Course.calls hk).trans (List.append_nil _)

end

namespace Arrival

variable (h : Arrival text options migrations stores id ops calls b d)

include h

/-- In conditions that do not cancel it at the end of the calls either, the run comes to the record. -/
theorem path (cond : Conditions) (hf : cond.fault = Conditions.calm.fault)
    (hc : ∀ made ≤ calls.length, cond.cancelled made = false) :
    ∃ n, Path (fun _ => text) cond n ⟨0, stores, Run.start options migrations⟩ calls d := by
  obtain ⟨n, hp⟩ := h.reached cond hf (fun made hm => hc made (by omega))
  rcases h.last with ⟨-, rfl⟩ | ⟨-, hb, hd⟩
  · exact ⟨n, hp⟩
  · have hmade : b.made = 0 + calls.length := hp.made_eq
    have ht : Transition (fun _ => text) cond b [] ⟨b.made, b.stores, d.state⟩ := .checkpoint hb (hc _ (by omega))
    rw [← hd] at ht
    have := hp.trans (.single ht)
    rw [List.append_nil] at this
    exact ⟨_, this⟩

include hr

/-- Cancelled at the end of its calls or later, a run writes the record, unless it is cancelled just there and is still
    to find that it has gone through the rows. -/
theorem calls_cancelled {k : Nat} (hk : calls.length ≤ k) :
    (k = calls.length ∧ EndsInScan ops d.stores.data ∧
        (run (fun _ => text) (.after k) options migrations stores).calls = calls) ∨
      (¬ (k = calls.length ∧ EndsInScan ops d.stores.data) ∧
        ∃ post, (run (fun _ => text) (.after k) options migrations stores).calls =
          calls ++ options.record id :: post) := by
  by_cases hlt : calls.length < k
  · obtain ⟨n, hp⟩ := h.path (.after k) rfl (fun made hm => cancelled_before (by omega))
    refine Or.inr ⟨?_, calls_of_path hr hp h.next⟩
    intro hbad
    omega
  · obtain rfl : k = calls.length := by omega
    obtain ⟨n, hp⟩ := h.reached (.after calls.length) rfl (fun made hm => cancelled_before hm)
    rcases h.last with ⟨hends, rfl⟩ | ⟨hends, hb, -⟩
    · refine Or.inr ⟨?_, calls_of_path hr hp h.next⟩
      intro hbad
      exact hends hbad.2
    · have hmade : b.made = calls.length := hp.made_eq.trans (Nat.zero_add _)
      refine Or.inl ⟨rfl, hends, calls_of_stopped hr hp hb ?_⟩
      rw [hmade]
      apply cancelled_at
      intro _ _ _; rfl

end Arrival

end

/-! ## what is recorded in the end -/

section

variable {σ η : Type} [TableStore σ] [TableStore η] [MemoryLike σ] [MemoryLike η]
  {text : String → Except FileError String} {options : Options} {migrations : List MigrationFile}
  {stores : Stores σ η} (h : stores.Reachable)
  (hn : (migrations.map (·.id)).Nodup) (hl : ∀ m ∈ migrations, Unobtrusive text stores options.historyTable m)

include h hn hl

theorem recorded_turns {s : Summary} (ho : (turns text options migrations stores).outcome = some (.ok s)) :
    Recorded options.historyTable stores (turns text options migrations stores).stores (migrations.map (·.id)) ∧
      s.skipped = (migrations.filter (stores.records options.historyTable ·.id)).map (·.id) := by
  rcases turns_cases migrations h hn (fun m hm _ => hl m hm) with ⟨hall, hrecorded⟩ | ⟨_, _, _, _, _, houtcome, _⟩
  · cases hall.symm.trans ho
    exact ⟨hrecorded, rfl⟩
  · cases houtcome.symm.trans ho

theorem unrecorded_of_recording {id : String} (hx : options.record id ∈ (turns text options migrations stores).calls) :
    stores.records options.historyTable id = false := by
  have hx : options.record id ∈ (account text options migrations ⟨[], []⟩
      (stores.perform .ledger (.ensureTable options.historyTable)).2).calls :=
    record_of_turns hx
  obtain ⟨before, m, after, s, rfl, rfl, ho, hx⟩ := account_recording hx
  obtain ⟨after', ops, stats, hp, -⟩ := visit_recording hx
  rw [List.map_append, List.nodup_append] at hn
  obtain ⟨hrecorded, -⟩ := recorded_turns h hn.1 (fun m hm => hl m (List.mem_append_left _ hm)) ho
  have hnone : (turns text options before stores).stores.records options.historyTable m.id = false := by
    rw [Stores.records, show (turns text options before stores).stores.perform .ledger _ = _ from hp]
  rw [Bool.eq_false_iff]
  intro hm
  rw [(hrecorded m.id).mpr (Or.inl hm)] at hnone
  cases hnone

/-- What a run does that skips a migration: it does not record it, tells of it as skipped, and does not fail for it. -/
structure Skips (options : Options) (c : Course σ η Summary) (id : String) : Prop where
  unwritten : options.record id ∉ c.calls
  listed : ∀ s, c.outcome = some (.ok s) → id ∈ s.skipped
  faultless : ∀ cause, c.outcome ≠ some (.error (.migration id cause))

theorem skips_recorded {f : MigrationFile} (hf : f ∈ migrations)
    (hr : stores.records options.historyTable f.id = true) :
    Skips options (run (fun _ => text) .calm options migrations stores) f.id := by
  rw [run_eq_turns text options migrations h, if_neg (List.ne_nil_of_mem hf)]
  constructor
  · intro hx
    rw [unrecorded_of_recording h hn hl hx] at hr
    cases hr
  · intro s ho
    rw [(recorded_turns h hn hl ho).2]
    exact List.mem_map_of_mem (List.mem_filter.mpr ⟨hf, hr⟩)
  · intro cause ho
    rcases turns_cases migrations h hn (fun m hm _ => hl m hm) with ⟨hall, -⟩ | ⟨_, m, _, _, _, houtcome, hstopped⟩
    · cases hall.symm.trans ho
    · have hid : m.id = f.id := by
        have := houtcome.symm.trans ho
        simp only [Option.some.injEq, Except.error.injEq, MigrateError.migration.injEq] at this
        exact this.1
      have hrec := hstopped.unrecorded
      rw [hid, hr] at hrec
      cases hrec

end

section

variable {text : String → Except FileError String} {options : Options} {migrations : List MigrationFile}
  {stores : Stores MemoryStore MemoryStore}

/-- The calls of a run that records a migration, up to its record. -/
theorem arrival_of_recording (h : stores.Reachable) (hn : (migrations.map (·.id)).Nodup) {f : MigrationFile}
    (hf : f ∈ migrations) {ops : List Operation} (hops : f.operations (text f.path) = .ok ops)
    (hx : options.record f.id ∈ (run (fun _ => text) .calm options migrations stores).calls) :
    ∃ before work b d, (∀ x ∈ work, x.1 = .data) ∧
      options.record f.id ∉ (.ledger, .ensureTable options.historyTable) :: before ++ options.lookup f.id :: work ∧
      Arrival text options migrations stores f.id ops
        ((.ledger, .ensureTable options.historyTable) :: before ++ options.lookup f.id :: work) b d := by
  rw [run_eq_turns text options migrations h, if_neg (List.ne_nil_of_mem hf)] at hx
  have hx : options.record f.id ∈ (account text options migrations ⟨[], []⟩
      (stores.perform .ledger (.ensureTable options.historyTable)).2).calls :=
    record_of_turns hx
  obtain ⟨before, m, rest, s, rfl, hid, ho, hx⟩ := account_recording hx
  obtain rfl : m = f := eq_of_id hn (List.mem_append_right _ List.mem_cons_self) hf hid
  obtain ⟨ops', work, b, d, hops', hwork, harrival⟩ := exists_arrival rest h ho hx
  cases hops.symm.trans hops'
  refine ⟨_, work, b, d, hwork, ?_, harrival⟩
  intro hmem
  simp only [List.cons_append, List.mem_cons, List.mem_append] at hmem
  rcases hmem with hmem | hmem | hmem | hmem
  · cases hmem
  · obtain ⟨m', hm', hcall⟩ := mem_account_calls hmem
    rw [List.map_append, List.nodup_append] at hn
    exact hn.2.2 m'.id (List.mem_map_of_mem hm') m.id (List.mem_map_of_mem List.mem_cons_self) hcall.id_eq.symm
  · cases hmem
  · cases hwork _ hmem

/-- A cancelled run leaves its stores within reach, as its calls leave them. -/
theorem stores_after (h : stores.Reachable) (k : Nat) :
    (run (fun _ => text) (.after k) options migrations stores).stores.Reachable ∧
      (run (fun _ => text) (.after k) options migrations stores).stores =
        stores.replay .calm 0 (run (fun _ => text) (.after k) options migrations stores).calls :=
  ⟨(follow_view text (.after k) _ ⟨0, stores, Run.start options migrations⟩ h).2,
    (follow_stores (fun _ => text) (.after k) _ ⟨0, stores, Run.start options migrations⟩).trans
      (replay_spared (.after k) 0 stores _)⟩

/-- After a run, cancelled or not, those migrations are recorded that were before or that it has recorded. -/
theorem recorded_after (h : stores.Reachable) (hl : ∀ m ∈ migrations, Unobtrusive text stores options.historyTable m)
    {k : Nat} {rest : List (Target × Call)} (hc : (run (fun _ => text) (.after k) options migrations stores).calls =
      (.ledger, .ensureTable options.historyTable) :: rest) (id : String) :
    (run (fun _ => text) (.after k) options migrations stores).stores.records options.historyTable id = true ↔
      stores.records options.historyTable id = true ∨ options.record id ∈ rest := by
  have hinitial : (run (fun _ => text) (.after k) options migrations stores).calls <+:
      (run (fun _ => text) .calm options migrations stores).calls := by
    rcases follow_cancelled (fun _ => text) (.after k) _ (⟨0, stores, Run.start options migrations⟩ :
      Config MemoryStore MemoryStore Run) with heq | ⟨-, hinitial⟩
    · exact (congrArg Course.calls heq) ▸ List.prefix_rfl
    · exact hinitial
  have horderly : ∀ x ∈ rest, Orderly options stores.isShared x := by
    intro x hx
    have hx := hinitial.subset (hc ▸ List.mem_cons_of_mem _ hx)
    rw [run_eq_turns text options migrations h] at hx
    split at hx
    · cases hx
    · exact orderly_turns hl x hx
  have hopened := h.perform .ledger (.ensureTable options.historyTable)
  have ht := (Stores.ensure_ledgerTable h options.historyTable).2
  rw [← stores.isShared_perform .ledger (.ensureTable options.historyTable)] at horderly
  have hreplay := (records_replay hopened (by simp [ht]) horderly 1).2 id
  rw [(stores_after h k).2, hc, ← records_ensureTable h options.historyTable id]
  exact hreplay

/-- A migration is recorded by the run that carries it out, although that is cancelled after the last call of its
    execution, or later; and then it is skipped by the next run. There is one exception: its operations have ended by
    going through the rows of a table that has some, and the run is cancelled right after the last call of that. -/
theorem run_cancelled_recorded_iff (t : FileTree) (text : String → Except FileError String) (options : Options)
    {migrations : List MigrationFile} (hm : t.migrations options = .ok migrations)
    {stores : Stores MemoryStore MemoryStore} (h : stores.Reachable)
    (hl : ∀ m ∈ migrations, Unobtrusive text stores options.historyTable m) {f : MigrationFile} (hf : f ∈ migrations)
    {ops : List Operation} (hops : f.operations (text f.path) = .ok ops)
    (hx : options.record f.id ∈ (run (fun _ => text) .calm options migrations stores).calls) {k : Nat}
    (hk : (run (fun _ => text) .calm options migrations stores).calls.idxOf (options.record f.id) ≤ k) :
    let u := run (fun _ => text) .calm options migrations stores
    let c := run (fun _ => text) (.after k) options migrations stores
    let calls := u.calls.take (u.calls.idxOf (options.record f.id))
    (∃ before work, calls = before ++ options.lookup f.id :: work ∧ ∀ x ∈ work, x.1 = .data) ∧
      (c.stores.records options.historyTable f.id = true ↔
        ¬ (k = calls.length ∧ EndsInScan ops (stores.replay .calm 0 calls).data)) ∧
      (c.stores.records options.historyTable f.id = true →
        Skips options (run (fun _ => text) .calm options migrations c.stores) f.id) := by
  intro u c calls
  have hn : (migrations.map (·.id)).Nodup := nodup_ids hm
  obtain ⟨before, work, b, d, hwork, hnot, harrival⟩ := arrival_of_recording h hn hf hops hx
  obtain ⟨pre, hpre⟩ : ∃ pre,
    pre = (.ledger, .ensureTable options.historyTable) :: before ++ options.lookup f.id :: work := ⟨_, rfl⟩
  rw [← hpre] at hnot harrival
  obtain ⟨n, hpath⟩ := harrival.path .calm rfl (fun _ _ => rfl)
  obtain ⟨post, hu⟩ := calls_of_path h hpath harrival.next
  have hindex : u.calls.idxOf (options.record f.id) = pre.length := by
    rw [hu, List.idxOf_append, if_neg hnot, List.idxOf_cons_self, Nat.zero_add]
  have hcalls : calls = pre := by
    show u.calls.take (u.calls.idxOf (options.record f.id)) = pre
    rw [hindex, hu, List.take_left]
  have hstores : d.stores = stores.replay .calm 0 calls := hcalls ▸ hpath.stores_eq
  rw [← hstores]
  have hunrecorded : stores.records options.historyTable f.id = false := by
    rw [run_eq_turns text options migrations h, if_neg (List.ne_nil_of_mem hf)] at hx
    exact unrecorded_of_recording h hn hl hx
  rw [hindex] at hk
  -- the calls of the cancelled run, with the record or without
  have hrecord : (∃ post, c.calls = pre ++ options.record f.id :: post) →
      c.stores.records options.historyTable f.id = true := by
    rintro ⟨post, hpost⟩
    rw [recorded_after h hl (hpost.trans (by rw [hpre]; rfl))]
    exact Or.inr (by simp)
  have hwithout : c.calls = pre → c.stores.records options.historyTable f.id = false := by
    intro hc
    rw [Bool.eq_false_iff, ne_eq, recorded_after h hl (hc.trans hpre), hunrecorded]
    rintro (hfalse | hmem)
    · cases hfalse
    · exact hnot (hpre ▸ List.mem_cons_of_mem _ hmem)
  refine ⟨⟨_, work, hcalls.trans hpre, hwork⟩, ?_, ?_⟩
  · rw [hcalls]
    rcases harrival.calls_cancelled h hk with ⟨hbad, hends, hc⟩ | ⟨hgood, hc⟩
    · constructor
      · intro hr
        rw [hwithout hc] at hr
        cases hr
      · intro hgood
        exact absurd ⟨hbad, hends⟩ hgood
    · constructor
      · intro _; exact hgood
      · intro _; exact hrecord hc
  · intro hrecorded
    obtain ⟨hreach, hc⟩ := stores_after h k
    have hl' : ∀ m ∈ migrations, Unobtrusive text c.stores options.historyTable m := by
      intro m hm ops hops hs
      rw [show c.stores = _ from hc, isShared_replay] at hs
      exact hl m hm ops hops hs
    exact skips_recorded hreach hn hl' hf hrecorded

end

/-! ## a migration that ends with a patch -/

/-- A directory with one migration, which adds a row and then patches every row. -/
def patchAtEnd : FileTree :=
  ⟨.ofList [(["m"], .directory), (["m", "1.mig"], .file 0)], #[.bytes "INSERT t p r\nUPDATEA t a|1|NUMBER".toUTF8], []⟩

def patchAtEndText : String → Except FileError String := fun _ => .ok "INSERT t p r\nUPDATEA t a|1|NUMBER"

def patchAtEndRun (cond : Conditions) : Course MemoryStore MemoryStore Summary :=
  run (fun _ => patchAtEndText) cond (.ofDirectory "m") [⟨"1", "1.mig", "m/1.mig"⟩] (.shared .empty)

/-- All that it asks for has been done after six calls, but if it is cancelled then the migration is not recorded. -/
theorem patchAtEnd_unrecorded :
    (Options.ofDirectory "m").record "1" ∈ (patchAtEndRun .calm).calls ∧
      ¬ ∀ k, (patchAtEndRun .calm).calls.idxOf ((Options.ofDirectory "m").record "1") ≤ k →
        (patchAtEndRun (.after k)).stores.records "MigrationHistories" "1" = true := by
  refine ⟨by decide +kernel, ?_⟩
  intro hall
  have hrecorded := hall 6 (by decide +kernel)
  have hunrecorded : (patchAtEndRun (.after 6)).stores.records "MigrationHistories" "1" = false := by decide +kernel
  rw [hunrecorded] at hrecorded
  cases hrecorded

/-- Cancelled one call later it is recorded, and the next run skips it. -/
theorem patchAtEnd_recorded :
    patchAtEnd.migrations (.ofDirectory "m") = .ok [⟨"1", "1.mig", "m/1.mig"⟩] ∧
      (Options.ofDirectory "m").record "1" ∈ (patchAtEndRun .calm).calls ∧
      (patchAtEndRun .calm).calls.idxOf ((Options.ofDirectory "m").record "1") ≤ 7 ∧
      (patchAtEndRun (.after 7)).stores.records "MigrationHistories" "1" = true ∧
      Skips (.ofDirectory "m") (run (fun _ => patchAtEndText) .calm (.ofDirectory "m") [⟨"1", "1.mig", "m/1.mig"⟩]
        (patchAtEndRun (.after 7)).stores) "1" := by
  have hm : patchAtEnd.migrations (.ofDirectory "m") = .ok [⟨"1", "1.mig", "m/1.mig"⟩] := by cbv
  have hops : (⟨"1", "1.mig", "m/1.mig"⟩ : MigrationFile).operations (patchAtEndText "m/1.mig") =
      .ok [⟨"t", .row .add (.bare ⟨"p", "r"⟩)⟩, ⟨"t", .updateAll ⟨.ofList [("a", .int64 1)]⟩⟩] := by rfl
  have hr : (Stores.shared MemoryStore.empty : Stores MemoryStore MemoryStore).Reachable := ReachableFrom.refl
  have hl : ∀ m ∈ [(⟨"1", "1.mig", "m/1.mig"⟩ : MigrationFile)],
      Unobtrusive patchAtEndText (.shared .empty : Stores MemoryStore MemoryStore) "MigrationHistories" m := by
    intro m hm ops hops' _ op hop
    cases List.mem_singleton.mp hm
    cases hops.symm.trans hops'
    simp only [List.mem_cons, List.not_mem_nil, or_false] at hop
    rcases hop with rfl | rfl <;> decide
  have hx : (Options.ofDirectory "m").record "1" ∈ (patchAtEndRun .calm).calls := by decide +kernel
  have hk : (patchAtEndRun .calm).calls.idxOf ((Options.ofDirectory "m").record "1") ≤ 7 := by decide +kernel
  obtain ⟨-, hiff, hskips⟩ :=
    run_cancelled_recorded_iff patchAtEnd patchAtEndText (.ofDirectory "m") hm hr hl List.mem_cons_self hops hx hk
  have hgood : ¬ (7 = ((patchAtEndRun .calm).calls.take ((patchAtEndRun .calm).calls.idxOf
      ((Options.ofDirectory "m").record "1"))).length) := by decide +kernel
  have hrecorded := hiff.mpr (by intro hbad; exact hgood hbad.1)
  exact ⟨hm, hx, hk, hrecorded, hskips hrecorded⟩

end TableMigrations
