/-
  TableMigrations.Proofs.Account — a run is its migrations one after another.

  `visit` says how one migration fares by itself when its turn comes, and `account` what follows from that for a list
  of them. A run in calm conditions makes the same calls, leaves the same stores and ends alike (`run_eq_turns`), and
  it always ends. The turns of an execution are those of the run it is part of (`Path.applying`), so nothing about
  executions has to be proved again.
-/
import TableMigrations.Proofs.Ledger

namespace TableMigrations

/-! ## one migration by itself -/

section

variable {σ η : Type} [TableStore σ] [TableStore η]

def applyAndRecord (options : Options) (id : String) (ops : List Operation) (stores : Stores σ η) : Course σ η Bool :=
  let x := execute .calm options.limits ops stores
  match x.outcome with
  | none => ⟨x.calls, x.stores, none⟩
  | some (.error e) => ⟨x.calls, x.stores, some (.error e)⟩
  | some (.ok _) =>
    let record := recordCall options.historyTable (historyRecord id)
    let (answer, after) := x.stores.perform .ledger record
    ⟨x.calls ++ [(.ledger, record)], after, some (match answer with
      | .ok () => .ok true
      | .error e => .error (if e.ofRecord.isConflict then .historyConflict id else .store e.ofRecord))⟩

/-- How a migration fares when its turn comes: one with a record is skipped, any other is read and applied. The outcome
    tells whether it was applied. -/
def visit (text : String → Except FileError String) (options : Options) (stores : Stores σ η) (m : MigrationFile) :
    Course σ η Bool :=
  let lookup : Call := .getEntity options.historyTable (historyKey m.id)
  let (found, after) := stores.perform .ledger lookup
  Course.after [(.ledger, lookup)] (match found with
    | .error e => ⟨[], after, some (.error (.store e))⟩
    | .ok (some _) => ⟨[], after, some (.ok false)⟩
    | .ok none =>
      match m.operations (text m.path) with
      | .error e => ⟨[], after, some (.error e)⟩
      | .ok ops => applyAndRecord options m.id ops after)

def Summary.add (summary : Summary) (id : String) (applied : Bool) : Summary :=
  if applied then { summary with applied := summary.applied ++ [id] }
  else { summary with skipped := summary.skipped ++ [id] }

def account (text : String → Except FileError String) (options : Options) :
    List MigrationFile → Summary → Stores σ η → Course σ η Summary
  | [], summary, stores => ⟨[], stores, some (.ok summary)⟩
  | m :: r, summary, stores =>
    let v := visit text options stores m
    match v.outcome with
    | none => ⟨v.calls, v.stores, none⟩
    | some (.error e) => ⟨v.calls, v.stores, some (.error (.migration m.id e))⟩
    | some (.ok applied) => (account text options r (summary.add m.id applied) v.stores).after v.calls

/-- Migrations one after another as a run takes them, once it has made sure of the ledger's table. -/
def turns (text : String → Except FileError String) (options : Options) (migrations : List MigrationFile)
    (stores : Stores σ η) : Course σ η Summary :=
  (account text options migrations ⟨[], []⟩ (stores.perform .ledger (.ensureTable options.historyTable)).2).after
    [(.ledger, .ensureTable options.historyTable)]

end

/-! ## executions inside a run -/

section

variable {σ η : Type} [TableStore σ] [TableStore η] {files files' : FileReader σ} {cond : Conditions}

def Run.applying (r : Run) (id : String) (a : Config σ η Execution) : Config σ η Run :=
  ⟨a.made, a.stores, { r with stage := .applying id a.state }⟩

theorem Execution.never_reads (e : Execution) {path : String}
    {resume : Except FileError String → Except MigrateError Execution} : e.next ≠ .read path resume := by
  intro hn
  have habout : About (e.agenda.map Step.table) e := by
    intro step h
    exact List.mem_map_of_mem h
  rcases next_about habout with ⟨_, he⟩ | ⟨_, he, -⟩ | ⟨_, _, he, -⟩ <;> cases he.symm.trans hn

def Run.within (r : Run) (id : String) : Except MigrateError Execution → Except MigrateError Run
  | .ok x => .ok { r with stage := .applying id x }
  | .error e => .error (.migration id e)

theorem Run.next_applying_call (r : Run) (id : String) {x : Execution} {guarded : Bool} {target : Target} {c : Call}
    {resume : Except StoreError c.Result → Except MigrateError Execution}
    (hn : x.next = .call guarded target c resume) :
    Run.next { r with stage := .applying id x } = .call guarded target c fun answer => r.within id (resume answer) := by
  simp only [Run.next, hn]
  rfl

variable (files') in
theorem Transition.applying (r : Run) (id : String) {a b : Config σ η Execution} {l : List (Target × Call)}
    (ht : Transition files cond a l b) : Transition files' cond (r.applying id a) l (r.applying id b) := by
  cases ht with
  | @checkpoint go hn hc =>
    have hrun : Process.next (r.applying id a).state = .checkpoint { r with stage := .applying id go } := by
      show Run.next _ = _
      simp only [Run.next, Run.applying, show a.state.next = _ from hn]
    exact .checkpoint hrun hc
  | @call guarded target c resume p hn hc hr =>
    exact .call (a := r.applying id a) (r.next_applying_call id hn) hc (congrArg (r.within id) hr)
  | read hn hr => exact absurd hn (Execution.never_reads a.state)

variable (files') in
theorem Path.applying (r : Run) (id : String) {n : Nat} {a b : Config σ η Execution} {l : List (Target × Call)}
    (hp : Path files cond n a l b) : Path files' cond n (r.applying id a) l (r.applying id b) := by
  induction hp with
  | refl a => exact .refl _
  | step ht _ ih => exact .step (ht.applying files' r id) ih

variable (files') in
theorem ByCall.applying (r : Run) (id : String) {n : Nat} {a b : Config σ η Execution} {l : List (Target × Call)}
    (h : ByCall files cond n a l b) : ByCall files' cond n (r.applying id a) l (r.applying id b) := by
  cases h with
  | last hp ht => exact .last (hp.applying files' r id) (ht.applying files' r id)

variable (files') in
theorem Ends.applying (r : Run) (id : String) {a : Config σ η Execution} {l : List (Target × Call)} {s : Stores σ η}
    {e : MigrateError} (he : Ends files .calm a l s (.error e : Except MigrateError Stats)) :
    Ends files' .calm (r.applying id a) l s (.error (.migration id e) : Except MigrateError Summary) := by
  generalize ho : (.error e : Except MigrateError Stats) = o at he
  cases he with
  | done hn =>
    subst ho
    refine .done ?_
    show Run.next _ = _
    simp only [Run.next, Run.applying, show a.state.next = _ from hn]
  | stopped _ hc | withheld _ hc => simp [Conditions.cancelled, Conditions.calm] at hc
  | @refused guarded target c resume e' hn hc hr =>
    cases ho
    exact .refused (a := r.applying id a) (r.next_applying_call id hn) hc (congrArg (r.within id) hr)
  | unreadable hn hr => exact absurd hn (Execution.never_reads a.state)

end

/-! ## a migration's turn -/

theorem Execution.budget_mono {m n : Nat} (h : m ≤ n) (e : Execution) : e.budget m ≤ e.budget n := by
  rw [budget_eq, budget_eq]
  induction e.agenda with
  | nil => simp
  | cons step r ih =>
    have := stepBudget_mono h step
    simp only [List.map_cons, List.sum_cons]; omega

namespace Run

variable {m : MigrationFile} {content : Except FileError String} {ops : List Operation}

theorem migrationWrites_ok (hops : m.operations content = .ok ops) : migrationWrites (m, content) = ops.length + 1 := by
  simp only [migrationWrites, hops]

theorem migrationBudget_ok (options : Options) (rows : Nat) (hops : m.operations content = .ok ops) :
    migrationBudget options rows (m, content) = (Execution.start options.limits ops).budget rows + 2 := by
  simp only [migrationBudget, hops]

theorem one_lt_migrationBudget (options : Options) (rows : Nat) (reading : Reading) :
    1 < migrationBudget options rows reading := by
  obtain ⟨m, content⟩ := reading
  simp only [migrationBudget]
  split <;> omega

end Run

section

variable {σ η : Type} [TableStore σ] [TableStore η] {files : FileReader σ}

variable (files) in
/-- An execution that ends does so inside the run, too, within its budget. -/
theorem execute_path {limits : Limits} {ops : List Operation} {stores : Stores σ η} {o : Except MigrateError Stats}
    (ho : (execute .calm limits ops stores).outcome = some o) {rows : Nat} (hrows : stores.rowTotal + ops.length ≤ rows)
    (r : Run) (id : String) (made : Nat) :
    ∃ n < (Execution.start limits ops).budget rows, ∃ l b m s,
      Path files .calm n ⟨made, stores, { r with stage := .applying id (.start limits ops) }⟩ l (r.applying id b) ∧
        Ends (fun _ _ => .error .notFound) .calm b m s o ∧ execute .calm limits ops stores = ⟨l ++ m, s, some o⟩ := by
  obtain ⟨n, hn, l, b, m, s, hp, he, hx⟩ := follow_ends (a := ⟨0, stores, Execution.start limits ops⟩) ho
  have hpath := (hp.later made).applying files r id
  have hstart : (Config.later ⟨0, stores, Execution.start limits ops⟩ made : Config σ η Execution) =
      ⟨made, stores, Execution.start limits ops⟩ := congrArg (Config.mk · _ _) (Nat.zero_add made)
  rw [hstart] at hpath
  have := Execution.budget_mono hrows (.start limits ops)
  exact ⟨n, by omega, l, b.later made, m, s, hpath, he.later made, hx⟩

theorem Run.next_applying_done (r : Run) (id : String) {x : Execution} {stats : Stats}
    (hn : x.next = .done (.ok stats)) :
    Run.next { r with stage := .applying id x } =
      .call false .ledger (recordCall r.options.historyTable (historyRecord id)) (r.recorded id) := by
  simp only [Run.next, hn]
  rfl

section

variable {options : Options} {id : String} {ops : List Operation} {stores : Stores σ η} {rows : Nat}
  (files) (hrows : stores.rowTotal + ops.length ≤ rows) (r : Run) (hr : r.options = options) (made : Nat)

include hrows hr

/-- A migration that is applied by itself is applied by the run, which then chooses the next. -/
theorem applyAndRecord_ok {applied : Bool} (ho : (applyAndRecord options id ops stores).outcome = some (.ok applied)) :
    applied = true ∧ ∃ n ≤ (Execution.start options.limits ops).budget rows, ∃ made',
      Path files .calm n ⟨made, stores, { r with stage := .applying id (.start options.limits ops) }⟩
        (applyAndRecord options id ops stores).calls
        ⟨made', (applyAndRecord options id ops stores).stores,
          { r with stage := .choosing, summary := r.summary.add id true }⟩ := by
  subst hr
  simp only [applyAndRecord] at ho ⊢
  rcases hx : (execute .calm r.options.limits ops stores).outcome with _ | e | stats
  · simp only [hx] at ho; cases ho
  · simp only [hx] at ho; cases ho
  · obtain ⟨n, hn, l, b, m, s, hp, he, hc⟩ := execute_path files hx hrows r id made
    obtain ⟨rfl, rfl, hdone⟩ := he.of_ok
    rw [List.append_nil] at hc
    rcases ha : b.stores.perform .ledger (recordCall r.options.historyTable (historyRecord id)) with ⟨answer, after⟩
    simp only [hc, ha] at ho ⊢
    rcases answer with e | ⟨⟩
    · cases ho
    · cases ho
      exact ⟨rfl, n + 1, hn, b.made + 1, hp.trans (.single (.of_call (r.next_applying_done id hdone) ha rfl))⟩

theorem applyAndRecord_error {e : MigrateError}
    (ho : (applyAndRecord options id ops stores).outcome = some (.error e)) :
    ∃ n < (Execution.start options.limits ops).budget rows, ∃ l b m,
      Path files .calm n ⟨made, stores, { r with stage := .applying id (.start options.limits ops) }⟩ l b ∧
        Ends files .calm b m (applyAndRecord options id ops stores).stores
          (.error (.migration id e) : Except MigrateError Summary) ∧
        (applyAndRecord options id ops stores).calls = l ++ m := by
  subst hr
  simp only [applyAndRecord] at ho ⊢
  rcases hx : (execute .calm r.options.limits ops stores).outcome with _ | e' | stats
  · simp only [hx] at ho; cases ho
  · obtain ⟨n, hn, l, b, m, s, hp, he, hc⟩ := execute_path files hx hrows r id made
    simp only [hc] at ho ⊢
    cases ho
    exact ⟨n, hn, l, _, m, hp, he.applying files r id, rfl⟩
  · obtain ⟨n, hn, l, b, m, s, hp, he, hc⟩ := execute_path files hx hrows r id made
    obtain ⟨rfl, rfl, hdone⟩ := he.of_ok
    rw [List.append_nil] at hc
    rcases ha : b.stores.perform .ledger (recordCall r.options.historyTable (historyRecord id)) with ⟨answer, after⟩
    simp only [hc, ha] at ho ⊢
    rcases answer with e' | ⟨⟩
    · cases ho
      exact ⟨n, hn, l, _, _, hp, .of_call (r.next_applying_done id hdone) ha rfl, rfl⟩
    · cases ho

end

end

section

variable {σ η : Type} [TableStore σ] [TableStore η] [MemoryLike σ] [MemoryLike η]
  {text : String → Except FileError String} {options : Options} {stores : Stores σ η} (h : stores.Reachable)
  {m : MigrationFile} {rows : Nat}
  (hrows : stores.rowTotal + Run.migrationWrites (m, text m.path) ≤ rows)

include h

theorem rowTotal_lookup {table : String} {key : RowKey} {found : Except StoreError (Option Entity)}
    {after : Stores σ η} (ha : stores.perform .ledger (.getEntity table key) = (found, after)) :
    after.rowTotal ≤ stores.rowTotal := by
  have := Stores.rowTotal_perform h .ledger (.getEntity table key)
  rw [ha] at this
  exact this

omit h [MemoryLike σ] [MemoryLike η] in
theorem transition_reading {after : Stores σ η} (summary : Summary) (rest : List MigrationFile) (made : Nat)
    (ha : stores.perform .ledger (.getEntity options.historyTable (historyKey m.id)) = (.ok none, after)) :
    Transition (fun _ => text) .calm ⟨made, stores, (⟨options, .choosing, m :: rest, summary⟩ : Run)⟩
      [(.ledger, .getEntity options.historyTable (historyKey m.id))]
      ⟨made + 1, after, ⟨options, .reading m, rest, summary⟩⟩ :=
  .of_call rfl ha rfl

omit h [MemoryLike σ] [MemoryLike η] in
theorem transition_read (cond : Conditions) (stores : Stores σ η) (summary : Summary) (rest : List MigrationFile)
    (made : Nat) {ops : List Operation} (hops : m.operations (text m.path) = .ok ops) :
    Transition (fun _ => text) cond ⟨made, stores, (⟨options, .reading m, rest, summary⟩ : Run)⟩ []
      ⟨made, stores, ⟨options, .applying m.id (.start options.limits ops), rest, summary⟩⟩ :=
  .read (a := ⟨made, stores, (⟨options, .reading m, rest, summary⟩ : Run)⟩) rfl (by simp only [Run.received, hops])

omit h [MemoryLike σ] [MemoryLike η] in
/-- A migration without a record that can be read goes to its execution by the lookup alone. -/
theorem path_read {after : Stores σ η} (summary : Summary) (rest : List MigrationFile) (made : Nat)
    {ops : List Operation}
    (ha : stores.perform .ledger (.getEntity options.historyTable (historyKey m.id)) = (.ok none, after))
    (hops : m.operations (text m.path) = .ok ops) :
    Path (fun _ => text) .calm 2 ⟨made, stores, (⟨options, .choosing, m :: rest, summary⟩ : Run)⟩
      [(.ledger, .getEntity options.historyTable (historyKey m.id))]
      ⟨made + 1, after, ⟨options, .applying m.id (.start options.limits ops), rest, summary⟩⟩ :=
  (Path.single (transition_reading summary rest made ha)).trans
    (.single (transition_read .calm after summary rest (made + 1) hops))

include hrows

/-- A migration's turn that ends well leads the run to the next migration. -/
theorem visit_ok (summary : Summary) (rest : List MigrationFile) (made : Nat) {applied : Bool}
    (ho : (visit text options stores m).outcome = some (.ok applied)) :
    ∃ n ≤ Run.migrationBudget options rows (m, text m.path), ∃ made',
      Path (fun _ => text) .calm n ⟨made, stores, (⟨options, .choosing, m :: rest, summary⟩ : Run)⟩
        (visit text options stores m).calls
        ⟨made', (visit text options stores m).stores, ⟨options, .choosing, rest, summary.add m.id applied⟩⟩ := by
  rcases ha : stores.perform .ledger (.getEntity options.historyTable (historyKey m.id)) with ⟨found, after⟩
  have hlookup := rowTotal_lookup h ha
  simp only [visit, ha] at ho ⊢
  rcases found with e | _ | row
  · cases ho
  · rcases hops : m.operations (text m.path) with e | ops
    · simp only [hops] at ho; cases ho
    · simp only [hops] at ho ⊢
      have hwrites := Run.migrationWrites_ok hops
      have hbudget := Run.migrationBudget_ok options rows hops
      obtain ⟨rfl, n, hn, made', hp⟩ := applyAndRecord_ok (fun _ => text)
        (show after.rowTotal + ops.length ≤ rows by omega) ⟨options, .choosing, rest, summary⟩ rfl (made + 1) ho
      have hn : n ≤ (Execution.start options.limits ops).budget rows := hn
      exact ⟨2 + n, by omega, made', (path_read summary rest made ha hops).trans hp⟩
  · cases ho
    have := Run.one_lt_migrationBudget options rows (m, text m.path)
    exact ⟨1, by omega, made + 1, .single (.of_call rfl ha rfl)⟩

theorem visit_error (summary : Summary) (rest : List MigrationFile) (made : Nat) {e : MigrateError}
    (ho : (visit text options stores m).outcome = some (.error e)) :
    ∃ n < Run.migrationBudget options rows (m, text m.path), ∃ l b r,
      Path (fun _ => text) .calm n ⟨made, stores, (⟨options, .choosing, m :: rest, summary⟩ : Run)⟩ l b ∧
        Ends (fun _ => text) .calm b r (visit text options stores m).stores
          (.error (.migration m.id e) : Except MigrateError Summary) ∧
        (visit text options stores m).calls = l ++ r := by
  rcases ha : stores.perform .ledger (.getEntity options.historyTable (historyKey m.id)) with ⟨found, after⟩
  have hlookup := rowTotal_lookup h ha
  have hpos := Run.one_lt_migrationBudget options rows (m, text m.path)
  simp only [visit, ha] at ho ⊢
  rcases found with e' | _ | row
  · cases ho
    exact ⟨0, by omega, [], _, _, .refl _, .of_call rfl ha rfl, rfl⟩
  · rcases hops : m.operations (text m.path) with e' | ops
    · simp only [hops] at ho ⊢
      cases ho
      refine ⟨1, hpos, _, _, [], .single (transition_reading summary rest made ha), ?_, rfl⟩
      exact .unreadable (a := ⟨made + 1, after, (⟨options, .reading m, rest, summary⟩ : Run)⟩) rfl
        (by simp only [Run.received, hops])
    · simp only [hops] at ho ⊢
      have hwrites := Run.migrationWrites_ok hops
      have hbudget := Run.migrationBudget_ok options rows hops
      obtain ⟨n, hn, l, b, r, hp, he, hc⟩ := applyAndRecord_error (fun _ => text)
        (show after.rowTotal + ops.length ≤ rows by omega) ⟨options, .choosing, rest, summary⟩ rfl (made + 1) ho
      have hn : n < (Execution.start options.limits ops).budget rows := hn
      refine ⟨2 + n, by omega, _, b, r, (path_read summary rest made ha hops).trans hp, he, ?_⟩
      simp only [Course.after, hc]; simp
  · cases ho

end

/-! ## runs -/

section

variable {σ η : Type} [TableStore σ] [TableStore η] [MemoryLike σ] [MemoryLike η]

theorem applyAndRecord_ends (options : Options) (id : String) (ops : List Operation) {stores : Stores σ η}
    (h : stores.Reachable) :
    (applyAndRecord options id ops stores).stores.Reachable ∧
      ((∃ e, (applyAndRecord options id ops stores).outcome = some (.error e)) ∨
        ((applyAndRecord options id ops stores).outcome = some (.ok true) ∧
          (applyAndRecord options id ops stores).stores.rowTotal ≤ stores.rowTotal + (ops.length + 1))) := by
  obtain ⟨-, hreach⟩ := execute_view .calm options.limits ops h
  simp only [applyAndRecord]
  rcases execute_ends (Limits.within_sound _ _) ops h with ⟨stats, hx, hrows⟩ | ⟨e, hx⟩
  · have hx : (execute .calm options.limits ops stores).outcome = some (.ok stats) := hx
    have hrows : (execute .calm options.limits ops stores).stores.rowTotal ≤ stores.rowTotal + ops.length := hrows
    have hrecord := Stores.rowTotal_perform hreach .ledger (recordCall options.historyTable (historyRecord id))
    have hone : (recordCall options.historyTable (historyRecord id)).writes = 1 := rfl
    have hafter := hreach.perform .ledger (recordCall options.historyTable (historyRecord id))
    rcases ha : (execute .calm options.limits ops stores).stores.perform .ledger
      (recordCall options.historyTable (historyRecord id)) with ⟨answer, after⟩
    rw [ha] at hrecord hafter
    have hrecord : after.rowTotal ≤ _ := hrecord
    simp only [hx]
    refine ⟨hafter, ?_⟩
    rcases answer with e | ⟨⟩
    · exact Or.inl ⟨_, rfl⟩
    · exact Or.inr ⟨rfl, by omega⟩
  · have hx : (execute .calm options.limits ops stores).outcome = some (.error (.store e)) := hx
    simp only [hx]
    exact ⟨hreach, Or.inl ⟨_, rfl⟩⟩

/-- A migration's turn ends, and adds no more rows than the migration writes. -/
theorem visit_ends (text : String → Except FileError String) (options : Options) (m : MigrationFile)
    {stores : Stores σ η} (h : stores.Reachable) :
    (visit text options stores m).stores.Reachable ∧
      ((∃ e, (visit text options stores m).outcome = some (.error e)) ∨
        ∃ applied, (visit text options stores m).outcome = some (.ok applied) ∧
          (visit text options stores m).stores.rowTotal ≤ stores.rowTotal + Run.migrationWrites (m, text m.path)) := by
  rcases ha : stores.perform .ledger (.getEntity options.historyTable (historyKey m.id)) with ⟨found, after⟩
  have hlookup := rowTotal_lookup h ha
  have hafter : after.Reachable := by
    have := h.perform .ledger (.getEntity options.historyTable (historyKey m.id))
    rw [ha] at this; exact this
  simp only [visit, ha]
  rcases found with e | _ | row
  · exact ⟨hafter, Or.inl ⟨_, rfl⟩⟩
  · rcases hops : m.operations (text m.path) with e | ops
    · exact ⟨hafter, Or.inl ⟨_, rfl⟩⟩
    · have hwrites := Run.migrationWrites_ok hops
      obtain ⟨hreach, ⟨e, he⟩ | ⟨hok, hrows⟩⟩ := applyAndRecord_ends options m.id ops hafter
      · exact ⟨hreach, Or.inl ⟨e, he⟩⟩
      · refine ⟨hreach, Or.inr ⟨true, hok, ?_⟩⟩
        show (applyAndRecord options m.id ops after).stores.rowTotal ≤ _
        omega
  · refine ⟨hafter, Or.inr ⟨false, rfl, ?_⟩⟩
    show after.rowTotal ≤ _
    omega

theorem account_ends (text : String → Except FileError String) (options : Options) (migrations : List MigrationFile)
    (summary : Summary) {stores : Stores σ η} (h : stores.Reachable) :
    (account text options migrations summary stores).stores.Reachable ∧
      ∃ o, (account text options migrations summary stores).outcome = some o := by
  induction migrations generalizing summary stores with
  | nil => exact ⟨h, _, rfl⟩
  | cons m r ih =>
    obtain ⟨hreach, ⟨e, he⟩ | ⟨applied, hok, -⟩⟩ := visit_ends text options m h
    · simp only [account, he]
      exact ⟨hreach, _, rfl⟩
    · simp only [account, hok]
      exact ih (summary.add m.id applied) hreach

/-- From choosing on, a run is its migrations one after another. -/
theorem follow_eq_account (text : String → Except FileError String) (options : Options)
    (migrations : List MigrationFile) (summary : Summary) {stores : Stores σ η} (h : stores.Reachable) {rows : Nat}
    (hrows : stores.rowTotal + Run.writes (migrations.map fun m => (m, text m.path)) ≤ rows) (made : Nat) {fuel : Nat}
    (hfuel : (migrations.map fun m => (m, text m.path)).foldr (Run.migrationBudget options rows · + ·) 0 < fuel) :
    (⟨made, stores, ⟨options, .choosing, migrations, summary⟩⟩ : Config σ η Run).follow (fun _ => text) .calm fuel =
      account text options migrations summary stores := by
  induction migrations generalizing summary stores made fuel with
  | nil =>
    have he : Ends (fun _ => text) .calm ⟨made, stores, (⟨options, .choosing, [], summary⟩ : Run)⟩ [] stores
        (.ok summary) :=
      .done rfl
    exact (Path.refl _).follow_ends he (by omega)
  | cons m r ih =>
    have hcons : Run.writes ((m :: r).map fun m => (m, text m.path)) =
        Run.migrationWrites (m, text m.path) + Run.writes (r.map fun m => (m, text m.path)) := rfl
    simp only [List.map_cons, List.foldr_cons] at hfuel
    rw [hcons] at hrows
    obtain ⟨hreach, ⟨e, he⟩ | ⟨applied, hok, htotal⟩⟩ := visit_ends text options m h
    · obtain ⟨n, hn, l, b, r', hp, hend, hc⟩ := visit_error h (show _ ≤ rows by omega) summary r made he
      rw [hp.follow_ends hend (by omega)]
      simp only [account, he, hc]
    · obtain ⟨n, hn, made', hp⟩ := visit_ok h (show _ ≤ rows by omega) summary r made hok
      obtain ⟨k, rfl⟩ : ∃ k, fuel = n + k := ⟨fuel - n, by omega⟩
      rw [hp.follow_eq, ih (summary.add m.id applied) hreach (by omega) made' (by omega)]
      simp only [account, hok]

theorem transition_opening (files : FileReader σ) (options : Options) {migrations : List MigrationFile}
    {stores : Stores σ η} (h : stores.Reachable) (hne : migrations ≠ []) :
    Transition files .calm ⟨0, stores, Run.start options migrations⟩ [(.ledger, .ensureTable options.historyTable)]
      ⟨1, (stores.perform .ledger (.ensureTable options.historyTable)).2,
        ⟨options, .choosing, migrations, ⟨[], []⟩⟩⟩ := by
  have hanswer := (Stores.ensure_ledgerTable h options.historyTable).1
  cases migrations with
  | nil => exact absurd rfl hne
  | cons m r => exact .of_call rfl (Prod.ext hanswer rfl) rfl

/-- A run in calm conditions makes sure of the ledger's table and then is its migrations one after another. -/
theorem run_eq_turns (text : String → Except FileError String) (options : Options) (migrations : List MigrationFile)
    {stores : Stores σ η} (h : stores.Reachable) :
    run (fun _ => text) .calm options migrations stores =
      if migrations = [] then ⟨[], stores, some (.ok ⟨[], []⟩)⟩ else turns text options migrations stores := by
  rcases migrations with _ | ⟨m, r⟩
  · rfl
  · rw [if_neg (List.cons_ne_nil m r)]
    have hafter := h.perform .ledger (.ensureTable options.historyTable)
    have htotal : _ ≤ stores.rowTotal + 0 := Stores.rowTotal_perform h .ledger (.ensureTable options.historyTable)
    obtain ⟨readings, hreadings⟩ : ∃ readings, readings = (m :: r).map fun m => (m, text m.path) := ⟨_, rfl⟩
    have hrun : run (fun _ => text) .calm options (m :: r) stores =
        (⟨0, stores, Run.start options (m :: r)⟩ : Config σ η Run).follow (fun _ => text) .calm
          (Run.budget options (stores.rowTotal + Run.writes readings) readings) := by rw [hreadings]; rfl
    rw [hrun, Run.budget, (transition_opening (fun _ => text) options h (List.cons_ne_nil m r)).follow_succ]
    have := follow_eq_account text options (m :: r) ⟨[], []⟩ hafter
      (show _ ≤ stores.rowTotal + Run.writes readings by rw [← hreadings]; omega) 1
      (show _ < readings.foldr (Run.migrationBudget options (stores.rowTotal + Run.writes readings) · + ·) 0 + 1 by
        rw [← hreadings]; omega)
    rw [this]
    rfl

theorem run_ends (text : String → Except FileError String) (options : Options) (migrations : List MigrationFile)
    {stores : Stores σ η} (h : stores.Reachable) :
    ∃ o, (run (fun _ => text) .calm options migrations stores).outcome = some o := by
  rw [run_eq_turns text options migrations h]
  split
  · exact ⟨_, rfl⟩
  · exact (account_ends text options migrations _ (h.perform .ledger (.ensureTable options.historyTable))).2

end

end TableMigrations
