/-
  TableMigrations.Proofs.Failure — the first call that fails ends a run, and the run says so.

  Any call may fail without reaching the stores, by the conditions, or be refused by them. Every call that leads a run
  on was granted (`Path.granted`), so the first that fails is the last that is made. What the run had done by then and
  whose call it was is where the run stood (`Progress`); what it says is told by `FailsAt`, which lists the calls that a
  migration makes for itself.
-/
import TableMigrations.Proofs.Progress
import TableMigrations.Proofs.Rerun

namespace TableMigrations

/-! ## calls that are granted -/

section

variable {σ η : Type} [TableStore σ] [TableStore η]

/-- What a call is answered that is made under the conditions after others. -/
def answerAfter (cond : Conditions) (stores : Stores σ η) (calls : List (Target × Call)) (x : Target × Call) :
    Except StoreError x.2.Result :=
  (performUnder cond calls.length (stores.replay cond 0 calls) x.1 x.2).1

variable {files : FileReader σ} {cond : Conditions}

theorem Path.granted {n : Nat} {a b : Config σ η Run} {l : List (Target × Call)} (hp : Path files cond n a l b) :
    ∀ before x after, l = before ++ x :: after → ∃ answer : x.2.Result,
      (performUnder cond (a.made + before.length) (a.stores.replay cond a.made before) x.1 x.2).1 = .ok answer := by
  induction hp with
  | refl a =>
    intro before x after hl
    cases before <;> cases hl
  | @step n a b c l m ht _ ih =>
    cases ht with
    | checkpoint | read => exact ih
    | @call guarded target call resume p hn _ hr =>
      intro before x after hl
      cases before with
      | nil =>
        cases hl
        exact Run.granted hn hr
      | cons y before =>
        obtain ⟨rfl, hm⟩ := List.cons.inj hl
        obtain ⟨answer, hanswer⟩ := ih before x after hm
        have hmade : a.made + (before.length + 1) = a.made + 1 + before.length := by omega
        refine ⟨answer, ?_⟩
        rw [List.length_cons, hmade]
        exact hanswer

/-- A call of a run that fails is the last, and only it is not on the run's way. -/
theorem Path.last_refused {n : Nat} {a b : Config σ η Run} {l last done rest : List (Target × Call)}
    {s : Stores σ η} {o : Except MigrateError Summary} {x : Target × Call} {e : StoreError}
    (hp : Path files cond n a l b) (he : Ends files cond b last s o) (hc : l ++ last = done ++ x :: rest)
    (hx : (performUnder cond (a.made + done.length) (a.stores.replay cond a.made done) x.1 x.2).1 = .error e) :
    l = done ∧ last = [x] ∧ rest = [] := by
  have hpast : ∀ more, l ≠ done ++ x :: more := by
    intro more hl
    obtain ⟨answer, hok⟩ := hp.granted done x more hl
    cases hok.symm.trans hx
  rcases Run.ends_cases he with ⟨rfl, -⟩ | ⟨_, target, c, _, _, _, -, rfl, -⟩
  · rw [List.append_nil] at hc
    exact absurd hc (hpast rest)
  · rcases List.append_eq_append_iff.mp hc with ⟨more, rfl, hmore⟩ | ⟨more, rfl, hmore⟩
    · cases more with
      | nil =>
        obtain ⟨hx, hrest⟩ := List.cons.inj hmore
        exact ⟨(List.append_nil _).symm, by rw [hx], hrest.symm⟩
      | cons y more =>
        obtain ⟨-, hnil⟩ := List.cons.inj hmore
        cases more <;> cases hnil
    · cases more with
      | nil =>
        obtain ⟨hx, hrest⟩ := List.cons.inj hmore
        exact ⟨List.append_nil _, by rw [hx], hrest⟩
      | cons y more =>
        obtain ⟨rfl, -⟩ := List.cons.inj hmore
        exact absurd rfl (hpast more)

theorem Path.call_prefix {π α : Type} [Process π α] {n fuel : Nat} {a b : Config σ η π} {l : List (Target × Call)}
    (hp : Path files .calm n a l b) (ho : (a.follow files .calm fuel).outcome ≠ none) {guarded : Bool}
    {target : Target} {c : Call} {resume : Except StoreError c.Result → Except MigrateError π}
    (hn : Process.next b.state = .call guarded target c resume) :
    l ++ [(target, c)] <+: (a.follow files .calm fuel).calls := by
  obtain ⟨k, hk, hended⟩ := hp.follow_ended ho
  rw [hk]
  refine (List.prefix_append_right_inj l).mpr ?_
  cases k with
  | zero => exact absurd rfl hended
  | succ k =>
    rcases hr : resume (performUnder .calm b.made b.stores target c).1 with e | p
    · rw [(Ends.refused hn (Bool.and_false _) hr).follow_succ]
    · rw [(Transition.call hn (Bool.and_false _) hr).follow_succ]
      exact List.prefix_append _ _

end

/-! ## whose call it is -/

section

variable {σ η : Type} [TableStore σ] [TableStore η]

/-- What is told of the refusal of a record: of the rejection of its batch, why the record itself was refused. -/
inductive Unwrapped : StoreError → StoreError → Prop
  | rejected (index : Nat) (source : StoreError) : Unwrapped (.batchRejected index source) source
  | other {e : StoreError} (h : ∀ index source, e ≠ .batchRejected index source) : Unwrapped e e

/-- Why a migration fails whose record is refused: another record was in its way, or the store failed. -/
inductive RecordCause (id : String) (e : StoreError) : MigrateError → Prop
  | conflict {source : StoreError} {table : String} {key : RowKey} (hu : Unwrapped e source)
      (hr : source.root = .conflict table key) : RecordCause id e (.historyConflict id)
  | store {source : StoreError} (hu : Unwrapped e source) (hr : ∀ table key, source.root ≠ .conflict table key) :
      RecordCause id e (.store source)

theorem Unwrapped.ofRecord (e : StoreError) : Unwrapped e e.ofRecord := by
  by_cases h : ∃ index source, e = .batchRejected index source
  · obtain ⟨index, source, rfl⟩ := h
    exact .rejected index source
  · have h : ∀ index source, e ≠ .batchRejected index source := fun index source he => h ⟨index, source, he⟩
    rw [StoreError.ofRecord_of_ne h]
    exact .other h

theorem RecordCause.of_recorded (id : String) (e : StoreError) :
    RecordCause id e (if e.ofRecord.isConflict then .historyConflict id else .store e.ofRecord) := by
  have hu := Unwrapped.ofRecord e
  split
  next h =>
    obtain ⟨table, key, hr⟩ := StoreError.isConflict_iff.mp h
    exact .conflict hu hr
  next h => exact .store hu fun table key hr => h (StoreError.isConflict_iff.mpr ⟨table, key, hr⟩)

/-- The calls that a migration makes for itself before one that fails, from the stores on which its turn begins, and
    what its failure is told as. The refusal of a record is told as what it means; any other is told as it is. -/
inductive FailsAt (text : String → Except FileError String) (options : Options) (s : Stores σ η) (m : MigrationFile) :
    List (Target × Call) → Target × Call → StoreError → MigrateError → Prop
  | lookup {e : StoreError} : FailsAt text options s m [] (options.lookup m.id) e (.store e)
  | work {after : Stores σ η} {ops : List Operation} {work : List (Target × Call)} {c : Call} {e : StoreError}
      (hl : s.perform .ledger (options.lookup m.id).2 = (.ok none, after))
      (hops : m.operations (text m.path) = .ok ops)
      (hw : work ++ [(.data, c)] <+: (execute .calm options.limits ops after).calls) :
      FailsAt text options s m (options.lookup m.id :: work) (.data, c) e (.store e)
  | record {after final : Stores σ η} {ops : List Operation} {work : List (Target × Call)} {stats : Stats}
      {e : StoreError} {cause : MigrateError} (hl : s.perform .ledger (options.lookup m.id).2 = (.ok none, after))
      (hops : m.operations (text m.path) = .ok ops)
      (hx : execute .calm options.limits ops after = ⟨work, final, some (.ok stats)⟩)
      (hcause : RecordCause m.id e cause) :
      FailsAt text options s m (options.lookup m.id :: work) (options.record m.id) e cause

end

section

variable {σ η : Type} [TableStore σ] [TableStore η] [MemoryLike σ] [MemoryLike η]
  {text : String → Except FileError String} {options : Options} {migrations : List MigrationFile}
  {stores s : Stores σ η}

/-- Where a run stands tells whose call it is that fails: the ledger's table is being made sure of, or it is a call of
    the migration whose turn it is, those before having ended well. -/
theorem Progress.fails (h : stores.Reachable) {done : List (Target × Call)} {r : Run}
    (hp : Progress text options migrations stores done s r) {guarded : Bool} {target : Target} {c : Call}
    {resume : Except StoreError c.Result → Except MigrateError Run} (hn : r.next = .call guarded target c resume)
    {e : StoreError} {e' : MigrateError} (hr : resume (.error e) = .error e') :
    (done = [] ∧ (target, c) = (.ledger, .ensureTable options.historyTable) ∧ e' = .store e) ∨
      ∃ before m after calls sofar own cause, migrations = before ++ m :: after ∧
        turns text options before stores = ⟨calls, sofar, some (.ok r.summary)⟩ ∧ done = calls ++ own ∧
        FailsAt text options sofar m own (target, c) e cause ∧ e' = .migration m.id cause := by
  cases hp with
  | opening =>
    cases migrations with
    | nil => cases hn
    | cons m rest =>
      cases hn
      cases hr
      exact Or.inl ⟨rfl, rfl, rfl⟩
  | @choosing before rest calls _ summary hm hb =>
    cases rest with
    | nil => cases hn
    | cons m rest =>
      cases hn
      cases hr
      exact Or.inr ⟨before, m, rest, _, s, [], _, hm, hb, (List.append_nil _).symm, .lookup, rfl⟩
  | reading => cases hn
  | @applying before rest m calls work sofar after summary ops n b hm hb hl hops hpath =>
    have hreach := lookup_reachable h hb hl
    have hsound : options.limits.Sound := Limits.within_sound options.maxBatchSize options.pageSize
    rcases b.state.next_cases with ⟨stats, hx⟩ | ⟨go, hx⟩ | ⟨c', go, hx⟩
    · have hfails := FailsAt.record hl hops (execute_of_path hreach hsound hpath hx) (RecordCause.of_recorded m.id e)
      have hrun := Run.next_applying_done ⟨options, .applying m.id b.state, rest, summary⟩ m.id hx
      cases hrun.symm.trans hn
      cases hr
      exact Or.inr ⟨before, m, rest, calls, sofar, _, _, hm, hb, rfl, hfails, rfl⟩
    · have hrun : Run.next ⟨options, .applying m.id b.state, rest, summary⟩ =
          .checkpoint ⟨options, .applying m.id go, rest, summary⟩ := by
        simp only [Run.next, hx]
      cases hrun.symm.trans hn
    · have hends : (execute .calm options.limits ops after).outcome ≠ none := by
        rcases execute_ends hsound ops hreach with ⟨stats, ho, -⟩ | ⟨e, ho⟩ <;> simp [ho]
      have hfails := FailsAt.work (e := e) hl hops (hpath.call_prefix hends hx)
      have hrun := Run.next_applying_call ⟨options, .applying m.id b.state, rest, summary⟩ m.id hx
      cases hrun.symm.trans hn
      cases hr
      exact Or.inr ⟨before, m, rest, calls, sofar, _, _, hm, hb, rfl, hfails, rfl⟩

/-! ## runs -/

/-- What a run comes to whose call `x` fails with `e` after the calls `done`. Those were granted and are all that the
    stores show; `x` is the last call, and its failure is what the run ends with. It was made to make sure of the
    ledger's table, or for a migration `m` after the turns before it have ended well: then these calls hold a record of
    every migration that has been applied and none of `m`, and the ledger shows just that wherever no operation reaches
    it. -/
structure Refusal (text : String → Except FileError String) (cond : Conditions) (options : Options)
    (migrations : List MigrationFile) (stores : Stores σ η) (done : List (Target × Call)) (x : Target × Call)
    (e : StoreError) (c : Course σ η Summary) : Prop where
  granted : ∀ before y after, done = before ++ y :: after → ∃ answer, answerAfter cond stores before y = .ok answer
  last : c.calls = done ++ [x]
  kept : c.stores = stores.replay .calm 0 done
  outcome :
    (done = [] ∧ x = (.ledger, .ensureTable options.historyTable) ∧ c.outcome = some (.error (.store e))) ∨
      ∃ before m after calls sofar summary own cause, migrations = before ++ m :: after ∧
        turns text options before stores = ⟨calls, sofar, some (.ok summary)⟩ ∧ done = calls ++ own ∧
        FailsAt text options sofar m own x e cause ∧ c.outcome = some (.error (.migration m.id cause)) ∧
        recordings done = summary.applied.map options.record ∧ options.record m.id ∉ done ∧
        ∀ id, Unaddressed text stores.isShared options.historyTable migrations id →
          c.stores.record? options.historyTable id =
            if id ∈ summary.applied then some (historyRecord id) else stores.record? options.historyTable id

omit [TableStore σ] [TableStore η] [MemoryLike σ] [MemoryLike η] in
theorem record_mem_recordings {calls : List (Target × Call)} {id : String} :
    options.record id ∈ recordings calls ↔ options.record id ∈ calls := by
  simp [recordings, List.mem_filter]

/-- What a run has written of a record that no operation reaches is the record, if it has applied the migration. -/
theorem Progress.record? (h : stores.Reachable) {n : Nat} {done : List (Target × Call)} {b : Config σ η Run}
    (hp : Progress text options migrations stores done b.stores b.state)
    (hpath : Path (fun _ => text) .calm n ⟨0, stores, .start options migrations⟩ done b) {id : String}
    (hu : Unaddressed text stores.isShared options.historyTable migrations id) :
    b.stores.record? options.historyTable id =
      if id ∈ b.state.summary.applied then some (historyRecord id) else stores.record? options.historyTable id := by
  have hmem : options.record id ∈ done ↔ id ∈ b.state.summary.applied := by
    rw [← record_mem_recordings, hp.recordings]
    constructor
    · intro hx
      obtain ⟨j, hj, he⟩ := List.mem_map.mp hx
      rwa [← eq_of_record he]
    · intro hid
      exact List.mem_map_of_mem hid
  rcases Path.record? (a := ⟨0, stores, .start options migrations⟩) h (Run.respects_start hu) hpath with
    ⟨hx, -, hsome⟩ | ⟨hx, hsame⟩
  · rw [if_pos (hmem.mp hx), hsome]
  · rw [if_neg (fun hid => hx (hmem.mpr hid)), hsame]

variable [Transparent σ] [Transparent η]

/-- A run stops at the first call that fails and swallows no failure. Whatever the directory, the options and the
    stores, and whichever calls fail, without effect, by the conditions or because a store refuses them: the call is the
    last, its failure is what the run returns, as its own or as that of the migration in progress; that migration is
    not recorded, all that were applied before it are, and the stores hold what the calls have written that were
    granted. -/
theorem run_refused (t : FileTree) (text : String → Except FileError String) (cond : Conditions) (options : Options)
    {migrations : List MigrationFile} (hm : t.migrations options = .ok migrations) {stores : Stores σ η}
    (h : stores.Reachable) {done rest : List (Target × Call)} {x : Target × Call} {e : StoreError}
    (hc : (run (fun _ => text) cond options migrations stores).calls = done ++ x :: rest)
    (hx : answerAfter cond stores done x = .error e) :
    Refusal text cond options migrations stores done x e (run (fun _ => text) cond options migrations stores) := by
  obtain ⟨n, l, last, a, s, o, hpath, hp, he, hrun⟩ := run_progress h cond
  rw [hrun] at hc ⊢
  have hstart : answerAfter cond stores done x =
      (performUnder cond (0 + done.length) (stores.replay cond 0 done) x.1 x.2).1 := by
    rw [Nat.zero_add]; rfl
  obtain ⟨rfl, rfl, rfl⟩ := hpath.last_refused he hc (hstart.symm.trans hx)
  have hcalm := Run.path_calm hpath
  have hreplay : a.stores = stores.replay cond 0 l := hpath.stores_eq
  obtain rfl := Run.ends_stores (hreplay ▸ h.replay cond 0 l) he
  obtain ⟨guarded, target, c, resume, e₁, e₂, hn, hlast, hanswer, hr, rfl⟩ :=
    (Run.ends_cases he).resolve_left fun hnone => List.cons_ne_nil _ _ hnone.1
  obtain ⟨rfl, -⟩ := List.cons.inj hlast
  have he₁ : e₁ = e := by
    rw [hstart, ← hreplay, ← show a.made = 0 + l.length from hpath.made_eq, hanswer] at hx
    cases hx; rfl
  subst he₁
  constructor
  · intro before y after hl
    have := hpath.granted before y after hl
    rwa [Nat.zero_add] at this
  · rfl
  · exact hcalm.stores_eq
  · rcases hp.fails h hn hr with ⟨rfl, hx, rfl⟩ | ⟨before, m, after, calls, sofar, own, cause, hmig, hb, hdone,
      hfails, rfl⟩
    · exact Or.inl ⟨rfl, hx, rfl⟩
    · refine Or.inr ⟨before, m, after, calls, sofar, _, own, cause, hmig, hb, hdone, hfails, rfl, hp.recordings, ?_,
        fun id hu => hp.record? h hcalm hu⟩
      intro hmem
      rw [← record_mem_recordings, hp.recordings] at hmem
      obtain ⟨j, hj, he⟩ := List.mem_map.mp hmem
      obtain rfl := eq_of_record he
      have hbefore := (recordings_turns hb).1.subset hj
      have hnodup := nodup_ids hm
      rw [hmig, List.map_append, List.nodup_append] at hnodup
      exact hnodup.2.2 _ hbefore _ List.mem_cons_self rfl

end

/-- The fifth call fails as if another writer's record were in its way. -/
def overtaken : Conditions :=
  ⟨none, fun n => if n = 5 then some (.batchRejected 0 (.conflict "MigrationHistories" (historyKey "1"))) else none⟩

/-- It is the record of the first migration, which has been carried out: the run ends with a conflict of the ledger,
    and the second migration is not looked at. -/
theorem run_refused_overtaken :
    let migrations : List MigrationFile := [⟨"1", "1.mig", "m/1.mig"⟩, ⟨"2", "2.mig", "m/2.mig"⟩]
    let options : Options := .ofDirectory "m"
    let stores : Stores MemoryStore MemoryStore := .shared .empty
    let done : List (Target × Call) := [(.ledger, .ensureTable "MigrationHistories"), options.lookup "1",
      (.data, .ensureTable "t"), (.data, .submitBatch "t" "p" [⟨.add, .bare ⟨"p", "r"⟩⟩])]
    let c := run (fun _ => addThenPatchText) overtaken options migrations stores
    addThenPatch.migrations options = .ok migrations ∧ stores.Reachable ∧
      c.outcome = some (.error (.migration "1" (.historyConflict "1"))) ∧
      Refusal addThenPatchText overtaken options migrations stores done (options.record "1")
        (.batchRejected 0 (.conflict "MigrationHistories" (historyKey "1"))) c := by
  intro migrations options stores done c
  have hm : addThenPatch.migrations options = .ok migrations := by cbv
  have hr : stores.Reachable := ReachableFrom.refl
  have hc : c.calls = done ++ [options.record "1"] := by decide +kernel
  exact ⟨hm, hr, by decide +kernel, run_refused addThenPatch addThenPatchText overtaken options hm hr hc rfl⟩

end TableMigrations
