/-
  TableMigrations.Proofs.Progress — where a run stands after any of its calls.

  A run has yet to make sure of the ledger's table; or the turns of its first migrations have all ended well, and it
  chooses the next one, has looked that up, or is some way through its operations (`Progress`). Every turn that leads on
  keeps this (`Progress.step`), under any conditions, because a call that leads on has been granted. So wherever a run
  stops, it stops in one of these places, of its own accord or by one call that is refused (`run_progress`,
  `Run.ends_cases`).
-/
import TableMigrations.Proofs.Recording
import TableMigrations.Proofs.Addressing

namespace TableMigrations

/-! ## turns in calm conditions, seen from where they lead to -/

section

variable {σ η π α : Type} [TableStore σ] [TableStore η] [Process π α] {files : FileReader σ} {made : Nat}
  {stores : Stores σ η} {p : π} {l : List (Target × Call)} {b : Config σ η π}

theorem Transition.not_done {outcome : Except MigrateError α} (hn : Process.next p = .done outcome) :
    ¬ Transition files .calm ⟨made, stores, p⟩ l b := by
  intro ht
  cases ht with
  | checkpoint hn' _ => cases hn.symm.trans hn'
  | call hn' _ _ => cases hn.symm.trans hn'
  | read hn' _ => cases hn.symm.trans hn'

theorem Transition.to_checkpoint {go : π} (hn : Process.next p = .checkpoint go)
    (ht : Transition files .calm ⟨made, stores, p⟩ l b) : l = [] ∧ b = ⟨made, stores, go⟩ := by
  cases ht with
  | checkpoint hn' _ =>
    cases hn.symm.trans hn'
    exact ⟨rfl, rfl⟩
  | call hn' _ _ => cases hn.symm.trans hn'
  | read hn' _ => cases hn.symm.trans hn'

theorem Transition.to_call {guarded : Bool} {target : Target} {c : Call}
    {resume : Except StoreError c.Result → Except MigrateError π} (hn : Process.next p = .call guarded target c resume)
    (ht : Transition files .calm ⟨made, stores, p⟩ l b) :
    ∃ q, resume (stores.perform target c).1 = .ok q ∧ l = [(target, c)] ∧
      b = ⟨made + 1, (stores.perform target c).2, q⟩ := by
  cases ht with
  | checkpoint hn' _ => cases hn.symm.trans hn'
  | call hn' _ hr =>
    cases hn.symm.trans hn'
    exact ⟨_, hr, rfl, rfl⟩
  | read hn' _ => cases hn.symm.trans hn'

theorem Transition.to_read {path : String} {resume : Except FileError String → Except MigrateError π}
    (hn : Process.next p = .read path resume) (ht : Transition files .calm ⟨made, stores, p⟩ l b) :
    ∃ q, resume (files stores.data path) = .ok q ∧ l = [] ∧ b = ⟨made, stores, q⟩ := by
  cases ht with
  | checkpoint hn' _ => cases hn.symm.trans hn'
  | call hn' _ _ => cases hn.symm.trans hn'
  | read hn' hr =>
    cases hn.symm.trans hn'
    exact ⟨_, hr, rfl, rfl⟩

end

/-! ## migrations and then more of them -/

section

variable {σ η : Type} [TableStore σ] [TableStore η] {text : String → Except FileError String} {options : Options}

theorem account_append {before : List MigrationFile} {summary summary' : Summary} {stores s : Stores σ η}
    {calls : List (Target × Call)} (hb : account text options before summary stores = ⟨calls, s, some (.ok summary')⟩)
    (rest : List MigrationFile) :
    account text options (before ++ rest) summary stores = (account text options rest summary' s).after calls := by
  induction before generalizing summary stores calls with
  | nil => cases hb; rfl
  | cons m r ih =>
    simp only [account] at hb
    rcases ho : (visit text options stores m).outcome with _ | e | applied
    · simp only [ho] at hb; cases hb
    · simp only [ho] at hb; cases hb
    · simp only [ho] at hb
      obtain ⟨later, hlater⟩ : ∃ later,
        account text options r (summary.add m.id applied) (visit text options stores m).stores = later := ⟨_, rfl⟩
      rw [hlater] at hb
      obtain ⟨calls', s', o⟩ := later
      cases hb
      simp only [List.cons_append, account, ho, ih hlater, Course.after_after]

theorem turns_append {before : List MigrationFile} {summary : Summary} {stores s : Stores σ η}
    {calls : List (Target × Call)} (hb : turns text options before stores = ⟨calls, s, some (.ok summary)⟩)
    (rest : List MigrationFile) :
    turns text options (before ++ rest) stores = (account text options rest summary s).after calls := by
  obtain ⟨c, hc⟩ : ∃ c, account text options before ⟨[], []⟩
    (stores.perform .ledger (.ensureTable options.historyTable)).2 = c := ⟨_, rfl⟩
  obtain ⟨calls', s', o⟩ := c
  simp only [turns, hc, Course.after] at hb
  cases hb
  rw [turns, account_append hc rest, Course.after_after]

theorem turns_snoc {before : List MigrationFile} {m : MigrationFile} {summary : Summary} {stores s s' : Stores σ η}
    {calls own : List (Target × Call)} {applied : Bool}
    (hb : turns text options before stores = ⟨calls, s, some (.ok summary)⟩)
    (hv : visit text options s m = ⟨own, s', some (.ok applied)⟩) :
    turns text options (before ++ [m]) stores = ⟨calls ++ own, s', some (.ok (summary.add m.id applied))⟩ := by
  rw [turns_append hb]
  simp only [account, hv, Course.after, List.append_nil]

end

/-! ## standing -/

section

variable {σ η : Type} [TableStore σ] [TableStore η]

/-- What a run has done and is about to do, by the calls that it has made and the stores that they have left. -/
inductive Progress (text : String → Except FileError String) (options : Options) (migrations : List MigrationFile)
    (stores : Stores σ η) : List (Target × Call) → Stores σ η → Run → Prop
  | opening : Progress text options migrations stores [] stores (.start options migrations)
  | choosing {before rest : List MigrationFile} {calls : List (Target × Call)} {s : Stores σ η} {summary : Summary}
      (hm : migrations = before ++ rest) (ht : turns text options before stores = ⟨calls, s, some (.ok summary)⟩) :
      Progress text options migrations stores calls s ⟨options, .choosing, rest, summary⟩
  | reading {before rest : List MigrationFile} {m : MigrationFile} {calls : List (Target × Call)}
      {s after : Stores σ η} {summary : Summary} (hm : migrations = before ++ m :: rest)
      (ht : turns text options before stores = ⟨calls, s, some (.ok summary)⟩)
      (hl : s.perform .ledger (options.lookup m.id).2 = (.ok none, after)) :
      Progress text options migrations stores (calls ++ [options.lookup m.id]) after
        ⟨options, .reading m, rest, summary⟩
  | applying {before rest : List MigrationFile} {m : MigrationFile} {calls work : List (Target × Call)}
      {s after : Stores σ η} {summary : Summary} {ops : List Operation} {n : Nat} {b : Config σ η Execution}
      (hm : migrations = before ++ m :: rest)
      (ht : turns text options before stores = ⟨calls, s, some (.ok summary)⟩)
      (hl : s.perform .ledger (options.lookup m.id).2 = (.ok none, after))
      (hops : m.operations (text m.path) = .ok ops)
      (hp : Path (fun _ _ => .error .notFound) .calm n ⟨0, after, .start options.limits ops⟩ work b) :
      Progress text options migrations stores (calls ++ options.lookup m.id :: work) b.stores
        ⟨options, .applying m.id b.state, rest, summary⟩

end

section

variable {σ η : Type} [TableStore σ] [TableStore η] [MemoryLike σ] [MemoryLike η]
  {text : String → Except FileError String} {options : Options} {migrations : List MigrationFile}
  {stores : Stores σ η} (h : stores.Reachable)

include h

theorem turns_reachable {before : List MigrationFile} {calls : List (Target × Call)} {s : Stores σ η}
    {o : Option (Except MigrateError Summary)} (ht : turns text options before stores = ⟨calls, s, o⟩) :
    s.Reachable := by
  have := (account_ends text options before ⟨[], []⟩ (h.perform .ledger (.ensureTable options.historyTable))).1
  have hs : (turns text options before stores).stores = s := congrArg Course.stores ht
  rwa [← hs]

theorem lookup_reachable {before : List MigrationFile} {calls : List (Target × Call)} {s after : Stores σ η}
    {o : Option (Except MigrateError Summary)} (ht : turns text options before stores = ⟨calls, s, o⟩) {id : String}
    {found : Option Entity} (hl : s.perform .ledger (options.lookup id).2 = (.ok found, after)) : after.Reachable := by
  have := (turns_reachable h ht).perform .ledger (options.lookup id).2
  rwa [hl] at this

/-- An execution that has come to where it is done has ended there. -/
theorem execute_of_path {limits : Limits} (hl : limits.Sound) {ops : List Operation} {n : Nat}
    {work : List (Target × Call)} {b : Config σ η Execution} {stats : Stats}
    (hp : Path (fun _ _ => .error .notFound) .calm n ⟨0, stores, .start limits ops⟩ work b)
    (hn : b.state.next = .done (.ok stats)) : execute .calm limits ops stores = ⟨work, b.stores, some (.ok stats)⟩ := by
  have hends : (execute .calm limits ops stores).outcome ≠ none := by
    rcases execute_ends hl ops h with ⟨stats, ho, -⟩ | ⟨e, ho⟩ <;> simp [ho]
  obtain ⟨k, hk, ho⟩ := hp.follow_ended (show (Config.follow _ _ _ _).outcome ≠ none from hends)
  obtain ⟨k, rfl⟩ : ∃ j, k = j + 1 := by
    cases k with
    | zero => exact absurd rfl ho
    | succ j => exact ⟨j, rfl⟩
  have hdone : Ends (fun _ _ => .error .notFound) .calm b [] b.stores (.ok stats : Except MigrateError Stats) :=
    .done hn
  rw [hdone.follow_succ] at hk
  refine Eq.trans hk ?_
  simp [Course.after]

theorem Progress.step_opening {made : Nat} {l : List (Target × Call)} {b : Config σ η Run}
    (ht : Transition (fun _ => text) .calm ⟨made, stores, .start options migrations⟩ l b) :
    Progress text options migrations stores l b.stores b.state := by
  cases migrations with
  | nil => exact absurd ht (Transition.not_done rfl)
  | cons m rest =>
    obtain ⟨q, hq, rfl, rfl⟩ := ht.to_call rfl
    have hanswer : (stores.perform .ledger (.ensureTable (Run.start options (m :: rest)).options.historyTable)).1 =
      .ok () := (Stores.ensure_ledgerTable h options.historyTable).1
    rw [hanswer] at hq
    cases hq
    have hall : m :: rest = [] ++ m :: rest := rfl
    exact .choosing hall rfl

omit h [MemoryLike σ] [MemoryLike η] in
/-- The lookup of the next migration finds it, and its turn is over, or makes the run read it. -/
theorem Progress.step_choosing {before rest : List MigrationFile} {calls l : List (Target × Call)} {made : Nat}
    {s : Stores σ η} {summary : Summary} {b : Config σ η Run} (hm : migrations = before ++ rest)
    (hb : turns text options before stores = ⟨calls, s, some (.ok summary)⟩)
    (ht : Transition (fun _ => text) .calm ⟨made, s, (⟨options, .choosing, rest, summary⟩ : Run)⟩ l b) :
    Progress text options migrations stores (calls ++ l) b.stores b.state := by
  cases rest with
  | nil => exact absurd ht (Transition.not_done rfl)
  | cons m rest =>
    obtain ⟨q, hq, rfl, rfl⟩ := ht.to_call rfl
    rcases hfound : s.perform .ledger (options.lookup m.id).2 with ⟨found, after⟩
    rw [congrArg Prod.fst hfound] at hq
    rcases found with e | _ | row
    · cases hq
    · cases hq
      exact .reading hm hb hfound
    · cases hq
      have hv : visit text options s m = ⟨[options.lookup m.id], after, some (.ok false)⟩ := by
        simp only [visit, hfound]; rfl
      exact .choosing (by rw [hm]; simp) (turns_snoc hb hv)

/-- An execution goes on, or it is done, and with its record the turn of its migration is over. -/
theorem Progress.step_applying {before rest : List MigrationFile} {m : MigrationFile}
    {calls work l : List (Target × Call)} {s after : Stores σ η} {made n : Nat} {summary : Summary}
    {ops : List Operation} {x : Config σ η Execution} {b : Config σ η Run} (hm : migrations = before ++ m :: rest)
    (hb : turns text options before stores = ⟨calls, s, some (.ok summary)⟩)
    (hl : s.perform .ledger (options.lookup m.id).2 = (.ok none, after))
    (hops : m.operations (text m.path) = .ok ops)
    (hp : Path (fun _ _ => .error .notFound) .calm n ⟨0, after, .start options.limits ops⟩ work x)
    (ht : Transition (fun _ => text) .calm ⟨made, x.stores, (⟨options, .applying m.id x.state, rest, summary⟩ : Run)⟩ l
      b) :
    Progress text options migrations stores (calls ++ options.lookup m.id :: work ++ l) b.stores b.state := by
  have hreach := lookup_reachable h hb hl
  rcases x.state.next_cases with ⟨stats, hn⟩ | ⟨go, hn⟩ | ⟨c, go, hn⟩
  · obtain ⟨q, hq, rfl, rfl⟩ :=
      ht.to_call (Run.next_applying_done ⟨options, .applying m.id x.state, rest, summary⟩ m.id hn)
    rcases ha : x.stores.perform .ledger (options.record m.id).2 with ⟨answer, final⟩
    rw [congrArg Prod.fst ha] at hq
    rcases answer with e | ⟨⟩
    · cases hq
    · cases hq
      have hx := execute_of_path hreach (Limits.within_sound options.maxBatchSize options.pageSize) hp hn
      have hv : visit text options s m =
          ⟨options.lookup m.id :: work ++ [options.record m.id], final, some (.ok true)⟩ := by
        simp only [visit, hl, hops, applyAndRecord, show execute .calm options.limits ops after = _ from hx, ha]
        rfl
      rw [List.append_assoc]
      exact .choosing (by rw [hm]; simp) (turns_snoc hb hv)
  · have hrun : Run.next ⟨options, .applying m.id x.state, rest, summary⟩ =
        .checkpoint ⟨options, .applying m.id go, rest, summary⟩ := by
      simp only [Run.next, hn]
    obtain ⟨rfl, rfl⟩ := ht.to_checkpoint hrun
    have hmore := hp.trans (.single (.checkpoint hn rfl))
    rw [List.append_nil] at hmore ⊢
    exact .applying hm hb hl hops hmore
  · obtain ⟨q, hq, rfl, rfl⟩ :=
      ht.to_call (Run.next_applying_call ⟨options, .applying m.id x.state, rest, summary⟩ m.id hn)
    rcases ha : x.stores.perform .data c with ⟨answer, final⟩
    rw [congrArg Prod.fst ha] at hq
    rcases answer with e | answer
    · cases hq
    · cases hq
      have hstep : Transition (fun _ _ => .error .notFound) .calm x [(.data, c)] ⟨x.made + 1, final, go answer⟩ :=
        .of_call hn ha rfl
      have hmore := hp.trans (.single hstep)
      rw [List.append_assoc]
      exact .applying hm hb hl hops hmore

/-- A turn that leads a run on keeps what is known of where it stands. -/
theorem Progress.step {calls l : List (Target × Call)} {a b : Config σ η Run}
    (hp : Progress text options migrations stores calls a.stores a.state)
    (ht : Transition (fun _ => text) .calm a l b) :
    Progress text options migrations stores (calls ++ l) b.stores b.state := by
  obtain ⟨made, s, r⟩ := a
  cases hp with
  | opening => exact Progress.step_opening h ht
  | choosing hm hb => exact Progress.step_choosing hm hb ht
  | @reading before rest m _ _ _ summary hm hb hl =>
    obtain ⟨q, hq, rfl, rfl⟩ := ht.to_read rfl
    rcases hops : m.operations (text m.path) with e | ops
    · simp only [Run.received, hops] at hq; cases hq
    · simp only [Run.received, hops] at hq
      cases hq
      rw [List.append_nil]
      exact .applying (b := ⟨0, s, .start options.limits ops⟩) hm hb hl hops (.refl _)
  | applying hm hb hl hops hpath => exact Progress.step_applying h hm hb hl hops hpath ht

theorem Progress.path {n : Nat} {calls l : List (Target × Call)} {a b : Config σ η Run}
    (hp : Progress text options migrations stores calls a.stores a.state)
    (hpath : Path (fun _ => text) .calm n a l b) :
    Progress text options migrations stores (calls ++ l) b.stores b.state := by
  induction hpath generalizing calls with
  | refl a => rw [List.append_nil]; exact hp
  | step ht _ ih => rw [← List.append_assoc]; exact ih (hp.step h ht)

/-- A run under any conditions ends, and where it does is one of the places that it can stand in. -/
theorem run_progress (cond : Conditions) :
    ∃ n l last a s o, Path (fun _ => text) cond n ⟨0, stores, Run.start options migrations⟩ l a ∧
      Progress text options migrations stores l a.stores a.state ∧ Ends (fun _ => text) cond a last s o ∧
      run (fun _ => text) cond options migrations stores = ⟨l ++ last, s, some o⟩ := by
  obtain ⟨o, ho⟩ := Option.ne_none_iff_exists'.mp (run_ends_under text cond options migrations h)
  obtain ⟨n, -, l, a, last, s, hpath, he, hrun⟩ := follow_ends (a := ⟨0, stores, Run.start options migrations⟩) ho
  exact ⟨n, l, last, a, s, o, hpath, Progress.opening.path h (Run.path_calm hpath), he, hrun⟩

end

/-! ## where a run stops -/

section

variable {σ η : Type} [TableStore σ] [TableStore η] {files : FileReader σ} {cond : Conditions} {a : Config σ η Run}
  {last : List (Target × Call)} {s : Stores σ η} {o : Except MigrateError Summary}

/-- A run stops without a call, or by one that is refused. -/
theorem Run.ends_cases (he : Ends files cond a last s o) :
    (last = [] ∧ s = a.stores) ∨
      ∃ guarded target c resume e e', a.state.next = .call guarded target c resume ∧ last = [(target, c)] ∧
        performUnder cond a.made a.stores target c = (.error e, s) ∧ resume (.error e) = .error e' ∧ o = .error e' := by
  cases he with
  | done | stopped | withheld | unreadable => exact Or.inl ⟨rfl, rfl⟩
  | @refused guarded target c resume e' hn hc hr =>
    rcases hanswer : performUnder cond a.made a.stores target c with ⟨e | answer, after⟩
    · rw [hanswer] at hr
      exact Or.inr ⟨guarded, target, c, resume, e, e', hn, rfl, hanswer, hr, rfl⟩
    · obtain ⟨r', hr'⟩ := next_ok hn answer
      rw [hanswer, hr'] at hr
      cases hr

theorem Run.ends_stores [MemoryLike σ] [MemoryLike η] [Transparent σ] [Transparent η] (h : a.stores.Reachable)
    (he : Ends files cond a last s o) : s = a.stores := by
  rcases Run.ends_cases he with ⟨-, hs⟩ | ⟨guarded, target, c, resume, e, e', -, -, hanswer, -⟩
  · exact hs
  · unfold performUnder at hanswer
    split at hanswer
    · exact (congrArg Prod.snd hanswer).symm
    · rw [← Stores.perform_error h (congrArg Prod.fst hanswer), hanswer]

end

/-! ## the records among the calls -/

def recordings (calls : List (Target × Call)) : List (Target × Call) :=
  calls.filter fun
    | (.ledger, .submitBatch ..) => true
    | _ => false

theorem recordings_append (l r : List (Target × Call)) : recordings (l ++ r) = recordings l ++ recordings r :=
  List.filter_append l r

theorem recordings_work {work : List (Target × Call)} (h : ∀ x ∈ work, x.1 = .data) : recordings work = [] := by
  rw [recordings, List.filter_eq_nil_iff]
  rintro ⟨target, c⟩ hx
  cases h _ hx
  simp

section

variable {σ η : Type} [TableStore σ] [TableStore η] {text : String → Except FileError String} {options : Options}

/-- A migration is recorded in its turn if it is applied. -/
theorem recordings_visit {stores : Stores σ η} {m : MigrationFile} {applied : Bool}
    (ho : (visit text options stores m).outcome = some (.ok applied)) :
    recordings (visit text options stores m).calls = if applied then [options.record m.id] else [] := by
  have hwork : ∀ {ops : List Operation} {after : Stores σ η},
      recordings (execute .calm options.limits ops after).calls = [] := by
    intro ops after
    exact recordings_work fun x hx => (mem_execute_calls hx).1
  rcases hp : stores.perform .ledger (.getEntity options.historyTable (historyKey m.id)) with ⟨e | _ | row, after⟩
  · simp only [visit, hp, Course.after] at ho; cases ho
  · rcases hops : m.operations (text m.path) with e | ops
    · simp only [visit, hp, hops, Course.after] at ho; cases ho
    · simp only [visit, hp, hops, applyAndRecord, Course.after] at ho ⊢
      rcases hx : (execute .calm options.limits ops after).outcome with _ | e | stats
      · simp only [hx] at ho; cases ho
      · simp only [hx] at ho; cases ho
      · simp only [hx] at ho ⊢
        split at ho
        · cases ho
          rw [← List.append_assoc, recordings_append, recordings_append, hwork]; rfl
        · cases ho
  · simp only [visit, hp, Course.after] at ho ⊢
    cases ho; rfl

theorem recordings_account {before : List MigrationFile} {summary summary' : Summary} {stores s : Stores σ η}
    {calls : List (Target × Call)}
    (hb : account text options before summary stores = ⟨calls, s, some (.ok summary')⟩) :
    ∃ ids, ids.Sublist (before.map (·.id)) ∧ summary'.applied = summary.applied ++ ids ∧
      recordings calls = ids.map options.record := by
  induction before generalizing summary stores calls with
  | nil => cases hb; exact ⟨[], .slnil, by simp, rfl⟩
  | cons m r ih =>
    simp only [account] at hb
    rcases ho : (visit text options stores m).outcome with _ | e | applied
    · simp only [ho] at hb; cases hb
    · simp only [ho] at hb; cases hb
    · simp only [ho] at hb
      obtain ⟨later, hlater⟩ : ∃ later,
        account text options r (summary.add m.id applied) (visit text options stores m).stores = later := ⟨_, rfl⟩
      rw [hlater] at hb
      obtain ⟨calls', s', o⟩ := later
      cases hb
      obtain ⟨ids, hsub, happlied, hcalls⟩ := ih hlater
      have hturn := recordings_visit ho
      cases applied with
      | false =>
        refine ⟨ids, .cons _ hsub, happlied, ?_⟩
        rw [recordings_append, hturn, hcalls]; rfl
      | true =>
        refine ⟨m.id :: ids, .cons_cons _ hsub, ?_, ?_⟩
        · rw [happlied]; simp [Summary.add]
        · rw [recordings_append, hturn, hcalls]; rfl

theorem recordings_turns {before : List MigrationFile} {summary : Summary} {stores s : Stores σ η}
    {calls : List (Target × Call)} (hb : turns text options before stores = ⟨calls, s, some (.ok summary)⟩) :
    summary.applied.Sublist (before.map (·.id)) ∧ recordings calls = summary.applied.map options.record := by
  obtain ⟨c, hc⟩ : ∃ c, account text options before ⟨[], []⟩
    (stores.perform .ledger (.ensureTable options.historyTable)).2 = c := ⟨_, rfl⟩
  obtain ⟨calls', s', o⟩ := c
  simp only [turns, hc, Course.after] at hb
  cases hb
  obtain ⟨ids, hsub, happlied, hcalls⟩ := recordings_account hc
  rw [List.nil_append] at happlied
  rw [happlied]
  exact ⟨hsub, hcalls⟩

/-- The records that a run has written are those of the migrations that it has applied. -/
theorem Progress.recordings {migrations : List MigrationFile} {stores s : Stores σ η} {calls : List (Target × Call)}
    {r : Run} (hp : Progress text options migrations stores calls s r) :
    recordings calls = r.summary.applied.map options.record := by
  cases hp with
  | opening => rfl
  | choosing hm hb => exact (recordings_turns hb).2
  | reading hm hb hl =>
    rw [recordings_append, (recordings_turns hb).2]
    exact List.append_nil _
  | applying hm hb hl hops hpath =>
    have hwork := (Execution.confined_about _).path (Execution.about_start _ _) hpath
    rw [recordings_append, (recordings_turns hb).2, ← List.singleton_append, recordings_append,
      recordings_work fun x hx => (hwork x hx).1]
    exact List.append_nil _

end

end TableMigrations
