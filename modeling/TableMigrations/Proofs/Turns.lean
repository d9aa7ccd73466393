/-
  TableMigrations.Proofs.Turns — all that a run can do next.

  `Turn` lists what a run asks for in each of its stages, and `turn` says that there is nothing else. What follows for
  every run is read off it: a call that fails ends the run (`next_error`), any other leads on to one of a few places
  (`Onward`), and the calls before a stage are those that lead there (`Traced`).
-/
import TableMigrations.Proofs.Account

namespace TableMigrations

abbrev Options.lookup (o : Options) (id : String) : Target × Call :=
  (.ledger, .getEntity o.historyTable (historyKey id))

abbrev Options.record (o : Options) (id : String) : Target × Call :=
  (.ledger, recordCall o.historyTable (historyRecord id))

/-- An execution is done, goes on, or makes a guarded call to the data store, whose failure ends it. -/
theorem Execution.next_cases (e : Execution) :
    (∃ stats, e.next = .done (.ok stats)) ∨ (∃ go, e.next = .checkpoint go) ∨
      ∃ (c : Call) (go : c.Result → Execution), e.next = .call true .data c (orFail go) := by
  have habout : About (e.agenda.map Step.table) e := by
    intro s hs
    exact List.mem_map_of_mem hs
  rcases next_about habout with ⟨stats, he⟩ | ⟨go, he, -⟩ | ⟨c, go, he, -⟩
  · exact Or.inl ⟨stats, he⟩
  · exact Or.inr (Or.inl ⟨go, he⟩)
  · exact Or.inr (Or.inr ⟨c, go, he⟩)

theorem Execution.next_error {x : Execution} {guarded : Bool} {target : Target} {c : Call}
    {resume : Except StoreError c.Result → Except MigrateError Execution}
    (hn : x.next = .call guarded target c resume) (e : StoreError) : ∃ e', resume (.error e) = .error e' := by
  rcases x.next_cases with ⟨stats, h⟩ | ⟨go, h⟩ | ⟨c', go, h⟩ <;> cases hn.symm.trans h
  exact ⟨_, rfl⟩

namespace Run

/-! ## turns -/

/-- What a run asks for, stage by stage, and what it makes of the answer. -/
inductive Turn (r : Run) : Next Run Summary → Prop
  | done (hs : r.stage = .opening ∨ r.stage = .choosing) (hw : r.waiting = []) : r.Turn (.done (.ok r.summary))
  | opening {resume : Except StoreError Unit → Except MigrateError Run} (hs : r.stage = .opening)
      (hok : resume (.ok ()) = .ok { r with stage := .choosing })
      (herror : ∀ e, resume (.error e) = .error (.store e)) :
      r.Turn (.call true .ledger (.ensureTable r.options.historyTable) resume)
  | choosing {m : MigrationFile} {rest : List MigrationFile}
      {resume : Except StoreError (Option Entity) → Except MigrateError Run} (hs : r.stage = .choosing)
      (hw : r.waiting = m :: rest) (hok : ∀ found, resume (.ok found) = .ok (r.lookedUp m rest found))
      (herror : ∀ e, resume (.error e) = .error (.migration m.id (.store e))) :
      r.Turn (.call true .ledger (.getEntity r.options.historyTable (historyKey m.id)) resume)
  | reading {m : MigrationFile} (hs : r.stage = .reading m) : r.Turn (.read m.path (r.received m))
  | pausing {id : String} {x go : Execution} (hs : r.stage = .applying id x) (hn : x.next = .checkpoint go) :
      r.Turn (.checkpoint { r with stage := .applying id go })
  | applying {id : String} {x : Execution} {c : Call} {go : c.Result → Execution} (hs : r.stage = .applying id x)
      (hn : x.next = .call true .data c (Execution.orFail go)) :
      r.Turn (.call true .data c fun answer => r.within id (Execution.orFail go answer))
  | recording {id : String} {x : Execution} {stats : Stats} (hs : r.stage = .applying id x)
      (hn : x.next = .done (.ok stats)) :
      r.Turn (.call false .ledger (recordCall r.options.historyTable (historyRecord id)) (r.recorded id))

theorem turn (r : Run) : r.Turn r.next := by
  obtain ⟨options, stage, waiting, summary⟩ := r
  cases stage with
  | opening =>
    cases waiting with
    | nil => exact .done (Or.inl rfl) rfl
    | cons m rest => exact .opening rfl rfl fun _ => rfl
  | choosing =>
    cases waiting with
    | nil => exact .done (Or.inr rfl) rfl
    | cons m rest => exact .choosing rfl rfl (fun _ => rfl) fun _ => rfl
  | reading m => exact .reading rfl
  | applying id x =>
    rcases x.next_cases with ⟨stats, hn⟩ | ⟨go, hn⟩ | ⟨c, go, hn⟩
    · have := Turn.recording (r := ⟨options, .applying id x, waiting, summary⟩) rfl hn
      rwa [← next_applying_done ⟨options, .applying id x, waiting, summary⟩ id hn] at this
    · have := Turn.pausing (r := ⟨options, .applying id x, waiting, summary⟩) rfl hn
      simpa only [next, hn] using this
    · have := Turn.applying (r := ⟨options, .applying id x, waiting, summary⟩) rfl hn
      rwa [← next_applying_call ⟨options, .applying id x, waiting, summary⟩ id hn] at this

theorem next_error {r : Run} {guarded : Bool} {target : Target} {c : Call}
    {resume : Except StoreError c.Result → Except MigrateError Run} (hn : r.next = .call guarded target c resume)
    (e : StoreError) : ∃ e', resume (.error e) = .error e' := by
  have h := r.turn
  rw [hn] at h
  cases h with
  | opening hs hok herror => exact ⟨_, herror e⟩
  | choosing hs hw hok herror => exact ⟨_, herror e⟩
  | applying hs hn => exact ⟨_, rfl⟩
  | recording hs hn => exact ⟨_, rfl⟩

theorem next_ok {r : Run} {guarded : Bool} {target : Target} {c : Call}
    {resume : Except StoreError c.Result → Except MigrateError Run} (hn : r.next = .call guarded target c resume)
    (answer : c.Result) : ∃ r', resume (.ok answer) = .ok r' := by
  have h := r.turn
  rw [hn] at h
  cases h with
  | opening hs hok herror => exact ⟨_, hok⟩
  | choosing hs hw hok herror => exact ⟨_, hok answer⟩
  | applying hs hn => exact ⟨_, rfl⟩
  | recording hs hn => exact ⟨_, rfl⟩

theorem granted {r r' : Run} {guarded : Bool} {target : Target} {c : Call}
    {resume : Except StoreError c.Result → Except MigrateError Run} (hn : r.next = .call guarded target c resume)
    {answered : Except StoreError c.Result} (hr : resume answered = .ok r') : ∃ answer, answered = .ok answer :=
  EndsOnFailure.granted next_error hn hr

theorem fault_eq_none {σ η : Type} [TableStore σ] [TableStore η] {files : FileReader σ} {cond : Conditions}
    {a b : Config σ η Run} {x : Target × Call} (ht : Transition files cond a [x] b) :
    cond.fault (a.made + 1) = none :=
  EndsOnFailure.fault_eq_none next_error ht

/-- A call that is made even to a cancelled run is the record of a migration whose execution is done. -/
theorem next_unguarded {r : Run} {target : Target} {c : Call}
    {resume : Except StoreError c.Result → Except MigrateError Run} (hn : r.next = .call false target c resume) :
    ∃ id x, r.stage = .applying id x ∧ (target, c) = r.options.record id ∧
      ∀ {answer r'}, resume answer = .ok r' → r'.stage = .choosing := by
  have h := r.turn
  rw [hn] at h
  cases h with
  | recording hs hn =>
    refine ⟨_, _, hs, rfl, ?_⟩
    intro answer r' hr
    cases answer with
    | error e => cases hr
    | ok u =>
      cases hr
      rfl

/-! ## where turns lead -/

/-- Where a turn leads a run, by the call that it makes, when it does not end it. The files are as `text` tells. -/
inductive Onward (text : String → Except FileError String) (r : Run) : List (Target × Call) → Run → Prop
  | opening (hs : r.stage = .opening) :
      r.Onward text [(.ledger, .ensureTable r.options.historyTable)] { r with stage := .choosing }
  | choosing {m : MigrationFile} {rest : List MigrationFile} (found : Option Entity) (hs : r.stage = .choosing)
      (hw : r.waiting = m :: rest) : r.Onward text [r.options.lookup m.id] (r.lookedUp m rest found)
  | reading {m : MigrationFile} {ops : List Operation} (hs : r.stage = .reading m)
      (hops : m.operations (text m.path) = .ok ops) :
      r.Onward text [] { r with stage := .applying m.id (.start r.options.limits ops) }
  | pausing {id : String} {x go : Execution} (hs : r.stage = .applying id x) (hx : x.next = .checkpoint go) :
      r.Onward text [] { r with stage := .applying id go }
  | applying {id : String} {x : Execution} {c : Call} {go : c.Result → Execution} (answer : c.Result)
      (hs : r.stage = .applying id x) (hx : x.next = .call true .data c (Execution.orFail go)) :
      r.Onward text [(.data, c)] { r with stage := .applying id (go answer) }
  | recording {id : String} {x : Execution} {stats : Stats} (hs : r.stage = .applying id x)
      (hx : x.next = .done (.ok stats)) :
      r.Onward text [r.options.record id]
        { r with stage := .choosing, summary := { r.summary with applied := r.summary.applied ++ [id] } }

theorem onward {σ η : Type} [TableStore σ] [TableStore η] {files : FileReader σ} {cond : Conditions}
    {a b : Config σ η Run} {l : List (Target × Call)} (ht : Transition files cond a l b) :
    a.state.Onward (files a.stores.data) l b.state := by
  have hturn := a.state.turn
  cases ht with
  | checkpoint hn hc =>
    rw [show a.state.next = _ from hn] at hturn
    cases hturn with
    | pausing hs hx => exact .pausing hs hx
  | @read path resume p hn hr =>
    rw [show a.state.next = _ from hn] at hturn
    cases hturn with
    | @reading m hs =>
      rcases hops : m.operations (files a.stores.data m.path) with e | ops
      · simp only [received, hops] at hr; cases hr
      · simp only [received, hops] at hr
        cases hr
        exact .reading hs hops
  | @call guarded target c resume p hn hc hr =>
    obtain ⟨answer, hanswer⟩ := granted hn hr
    rw [hanswer] at hr
    rw [show a.state.next = _ from hn] at hturn
    cases hturn with
    | opening hs hok =>
      cases hok.symm.trans hr
      exact .opening hs
    | choosing hs hw hok =>
      cases (hok answer).symm.trans hr
      exact .choosing answer hs hw
    | applying hs hx =>
      cases hr
      exact .applying answer hs hx
    | recording hs hx =>
      cases hr
      exact .recording hs hx

/-! ## the calls before a stage -/

/-- What is known of a run that has made these calls: a migration is read right after it has been looked up, and while
    it is applied only the data store is called. -/
def Traced (options : Options) (migrations : List MigrationFile) (calls : List (Target × Call)) (r : Run) : Prop :=
  r.options = options ∧ (∀ m ∈ r.waiting, m ∈ migrations) ∧
    match r.stage with
    | .opening | .choosing => True
    | .reading m => m ∈ migrations ∧ ∃ before, calls = before ++ [options.lookup m.id]
    | .applying id _ => ∃ m ∈ migrations, m.id = id ∧
        ∃ before work, calls = before ++ options.lookup id :: work ∧ ∀ x ∈ work, x.1 = .data

theorem traced_start (options : Options) (migrations : List MigrationFile) :
    Traced options migrations [] (start options migrations) := by
  refine ⟨rfl, ?_, trivial⟩
  intro m hm
  exact hm

section

variable {options : Options} {migrations : List MigrationFile}

theorem traced_lookedUp {r : Run} {m : MigrationFile} {rest : List MigrationFile} {calls : List (Target × Call)}
    (h : Traced options migrations calls r) (hs : r.stage = .choosing) (hw : r.waiting = m :: rest)
    (found : Option Entity) : Traced options migrations (calls ++ [options.lookup m.id]) (r.lookedUp m rest found) := by
  obtain ⟨hoptions, hwaiting, -⟩ := h
  rw [hw] at hwaiting
  obtain ⟨hm, hrest⟩ := List.forall_mem_cons.mp hwaiting
  cases found with
  | none => exact ⟨hoptions, hrest, hm, calls, rfl⟩
  | some e =>
    refine ⟨hoptions, hrest, ?_⟩
    show match r.stage with | .opening | .choosing => True | .reading _ => _ | .applying .. => _
    rw [hs]
    trivial

variable {σ η : Type} [TableStore σ] [TableStore η] {files : FileReader σ} {cond : Conditions}

/-- A transition makes at most the one call that the stage it leads to accounts for. -/
theorem traced_transition {a b : Config σ η Run} {calls l : List (Target × Call)}
    (h : Traced options migrations calls a.state) (ht : Transition files cond a l b) :
    Traced options migrations (calls ++ l) b.state := by
  have honward := onward ht
  obtain ⟨rfl, hwaiting, hstage⟩ := h
  generalize a.state = r at honward hwaiting hstage
  generalize b.state = r' at honward
  cases honward with
  | opening | recording => exact ⟨rfl, hwaiting, trivial⟩
  | choosing found hs hw => exact traced_lookedUp ⟨rfl, hwaiting, hstage⟩ hs hw found
  | reading hs hops =>
    rw [hs] at hstage
    obtain ⟨hm, before, rfl⟩ := hstage
    exact ⟨rfl, hwaiting, _, hm, rfl, before, [], by simp, by simp⟩
  | pausing hs hx =>
    rw [hs] at hstage
    rw [List.append_nil]
    exact ⟨rfl, hwaiting, hstage⟩
  | @applying id x c go answer hs hx =>
    rw [hs] at hstage
    obtain ⟨m, hm, hid, before, work, rfl, hwork⟩ := hstage
    refine ⟨rfl, hwaiting, m, hm, hid, before, work ++ [(.data, c)], by simp, ?_⟩
    intro y hy
    rcases List.mem_append.mp hy with hy | hy
    · exact hwork y hy
    · rw [List.mem_singleton.mp hy]

end

/-! ## runs end -/

section

variable {σ η : Type} [TableStore σ] [TableStore η] {files : FileReader σ} {a b : Config σ η Run}
  {l : List (Target × Call)} (cond : Conditions)

/-- A call leads a run under any conditions to where it leads in calm ones, or ends it without reaching the stores. -/
theorem call_under {guarded : Bool} {target : Target} {c : Call}
    {resume : Except StoreError c.Result → Except MigrateError Run}
    (hn : Process.next a.state = .call guarded target c resume) :
    (∃ m o, Ends files cond a m a.stores o) ∨
      (guarded && cond.cancelled a.made) = false ∧
        performUnder cond a.made a.stores target c = performUnder .calm a.made a.stores target c := by
  rcases hc : guarded && cond.cancelled a.made with _ | _
  · rcases hf : cond.fault (a.made + 1) with _ | e
    · refine Or.inr ⟨rfl, ?_⟩
      simp only [performUnder, hf]
      rfl
    · obtain ⟨e', he⟩ := next_error hn e
      have hp : performUnder cond a.made a.stores target c = (.error e, a.stores) := by simp only [performUnder, hf]
      have hends : Ends files cond a [(target, c)] _ _ := .refused hn hc (by rw [hp]; exact he)
      rw [hp] at hends
      exact Or.inl ⟨_, _, hends⟩
  · exact Or.inl ⟨_, _, .withheld hn hc⟩

theorem transition_under (ht : Transition files .calm a l b) :
    (∃ m o, Ends files cond a m a.stores o) ∨ Transition files cond a l b := by
  cases ht with
  | checkpoint hn _ =>
    rcases hc : cond.cancelled a.made with _ | _
    · exact Or.inr (.checkpoint hn hc)
    · exact Or.inl ⟨_, _, .stopped hn hc⟩
  | call hn _ hr =>
    rcases call_under cond hn with hends | ⟨hc, hp⟩
    · exact Or.inl hends
    · rw [← hp] at hr ⊢
      exact Or.inr (.call hn hc hr)
  | read hn hr => exact Or.inr (.read hn hr)

theorem ends_under {s : Stores σ η} {o : Except MigrateError Summary} (he : Ends files .calm a l s o) :
    (∃ m o', Ends files cond a m a.stores o') ∨ Ends files cond a l s o := by
  cases he with
  | done hn => exact Or.inr (.done hn)
  | stopped _ hc => cases hc
  | withheld _ hc => simp [Conditions.calm_cancelled] at hc
  | refused hn _ hr =>
    rcases call_under cond hn with hends | ⟨hc, hp⟩
    · exact Or.inl hends
    · rw [← hp] at hr ⊢
      exact Or.inr (.refused hn hc hr)
  | unreadable hn hr => exact Or.inr (.unreadable hn hr)

theorem follow_ends_under {fuel : Nat} (h : (a.follow files .calm fuel).outcome ≠ none) :
    (a.follow files cond fuel).outcome ≠ none := by
  induction fuel generalizing a with
  | zero => exact absurd rfl h
  | succ fuel ih =>
    rcases transition_or_ends files .calm a with ⟨l, b, ht⟩ | ⟨l, s, o, he⟩
    · rw [ht.follow_succ] at h
      rcases transition_under cond ht with ⟨m, o, he⟩ | ht
      · simp [he.follow_succ]
      · rw [ht.follow_succ]
        exact ih h
    · rcases ends_under cond he with ⟨m, o', he⟩ | he <;> simp [he.follow_succ]

/-- A run under any conditions leaves the stores as some first calls of the run in calm conditions leave them. -/
theorem follow_under (fuel : Nat) :
    ∃ l, l <+: (a.follow files .calm fuel).calls ∧
      (a.follow files cond fuel).stores = a.stores.replay .calm a.made l := by
  induction fuel generalizing a with
  | zero => exact ⟨[], List.nil_prefix, rfl⟩
  | succ fuel ih =>
    have hnone : ∀ {m o}, Ends files cond a m a.stores o → ∃ l, l <+: (a.follow files .calm (fuel + 1)).calls ∧
        (a.follow files cond (fuel + 1)).stores = a.stores.replay .calm a.made l := by
      intro m o he
      exact ⟨[], List.nil_prefix, by rw [he.follow_succ]; rfl⟩
    rcases transition_or_ends files .calm a with ⟨l, b, ht⟩ | ⟨l, s, o, he⟩
    · rcases transition_under cond ht with ⟨m, o, he⟩ | ht'
      · exact hnone he
      · obtain ⟨l', hl', hs⟩ := ih (a := b)
        rw [ht.follow_succ, ht'.follow_succ]
        refine ⟨l ++ l', (List.prefix_append_right_inj l).mpr hl', ?_⟩
        rw [Stores.replay_append, ← ht.stores_eq, ← ht.made_eq]
        exact hs
    · rcases ends_under cond he with ⟨m, o', he'⟩ | he'
      · exact hnone he'
      · rw [he.follow_succ, he'.follow_succ]
        exact ⟨l, List.prefix_rfl, he.stores_eq⟩

/-! ## runs that succeed -/

variable {cond}

theorem path_calm {n : Nat} (hp : Path files cond n a l b) : Path files .calm n a l b :=
  EndsOnFailure.path_calm next_error hp

/-- A run that succeeds is the run in calm conditions. -/
theorem follow_calm {fuel : Nat} {summary : Summary} (ho : (a.follow files cond fuel).outcome = some (.ok summary)) :
    a.follow files cond fuel = a.follow files .calm fuel :=
  EndsOnFailure.follow_calm next_error ho

end

end Run

section

variable {σ η : Type} [TableStore σ] [TableStore η] [MemoryLike σ] [MemoryLike η]
  (text : String → Except FileError String) (cond : Conditions) (options : Options) (migrations : List MigrationFile)
  {stores : Stores σ η} (h : stores.Reachable)

include h

/-- A run on stores is the run on the memory stores that they read as. -/
theorem run_view : (run (fun _ => text) cond options migrations stores).view =
    run (fun _ => text) cond options migrations stores.view := by
  unfold run
  rw [Stores.rowTotal_view h]
  exact (follow_view text cond _ ⟨0, stores, Run.start options migrations⟩ h).1

/-- Whatever befalls a run, it leaves its stores within reach of calls. -/
theorem run_reachable : (run (fun _ => text) cond options migrations stores).stores.Reachable :=
  (follow_view text cond _ ⟨0, stores, Run.start options migrations⟩ h).2

theorem run_ends_under : (run (fun _ => text) cond options migrations stores).outcome ≠ none := by
  have hcalm : (run (fun _ => text) .calm options migrations stores).outcome ≠ none := by
    obtain ⟨o, ho⟩ := run_ends text options migrations h
    simp [ho]
  exact Run.follow_ends_under (a := ⟨0, stores, Run.start options migrations⟩) cond hcalm

end

end TableMigrations
