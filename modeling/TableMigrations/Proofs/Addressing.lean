/-
  TableMigrations.Proofs.Addressing — what reaches a single record of the ledger.

  A row write changes the row that it names; emptying or patching a table reaches every row of it
  (`Operation.addresses`). A plan has no step, and so an execution no call, that reaches a row which none of its
  operations addresses (`spares_planSteps`, `confined_spares`). This tells more than the name of the table: operations
  that share a store with the ledger may name its table and still leave most of its records alone.

  Such calls leave a record as it was (`record?_spared`). The call that writes it is granted where there is none, and
  refused as a conflict, for good, where there is one (`record?_record`, `refused_record`).
-/
import TableMigrations.Proofs.Calls

namespace TableMigrations

/-! ## addresses -/

/-- Whether an operation reaches the row under a key of a table: a row write its own row, any other every row. -/
def Operation.addresses (op : Operation) (table : String) (key : RowKey) : Bool :=
  op.table == table && match op.change with
    | .row _ e => e.key == key
    | .updateAll _ | .deleteAll => true

def Call.Spares (table : String) (key : RowKey) : Call → Prop
  | .deleteTable t => t ≠ table
  | .submitBatch t _ actions => t = table → ∀ a ∈ actions, a.entity.key ≠ key
  | .ensureTable _ | .getEntity .. | .queryPage .. => True

def Step.Spares (table : String) (key : RowKey) : Step → Prop
  | .drop t => t ≠ table
  | .submit b => b.table = table → ∀ a ∈ b.actions, a.entity.key ≠ key
  | .scan pager _ => pager.table ≠ table
  | .prepare _ | .recreate _ => True

section

variable {table : String} {key : RowKey}

theorem Operation.key_of_mem_rowActions {changes : List Change} {a : BatchAction} (h : a ∈ rowActions changes) :
    ∃ kind e, .row kind e ∈ changes ∧ a.entity.key = e.key := by
  obtain ⟨⟨kind, e⟩, hw, rfl⟩ := List.mem_map.mp h
  obtain ⟨change, hc, he⟩ := List.mem_filterMap.mp hw
  cases change with
  | row kind' e' =>
    cases he
    refine ⟨kind, e, hc, ?_⟩
    cases kind <;> rfl
  | updateAll | deleteAll => cases he

/-- The steps planned for operations leave a row alone that none of them addresses. -/
theorem spares_planSteps {limits : Limits} {ops : List Operation} (h : ∀ op ∈ ops, op.addresses table key = false)
    {step : Step} (hs : step ∈ planSteps limits ops) : step.Spares table key := by
  obtain ⟨t, -, hserves⟩ := serves_planSteps hs
  have haddressed : ∀ {change : Change}, change ∈ changesOf ops table →
      Operation.addresses ⟨table, change⟩ table key = false := by
    intro change hc
    obtain ⟨op, hasked, rfl⟩ := List.mem_map.mp hc
    obtain ⟨hop, ht⟩ := List.mem_filter.mp hasked
    have ht := of_decide_eq_true ht
    subst ht
    exact h op hop
  cases hserves with
  | prepare | recreate => trivial
  | drop hd =>
    rintro rfl
    have := haddressed hd
    simp [Operation.addresses] at this
  | @submit b ht ha =>
    intro htable a hmem hkey
    have ha := ha a hmem
    rw [← ht, htable] at ha
    obtain ⟨kind, e, hrow, he⟩ := Operation.key_of_mem_rowActions ha
    have := haddressed hrow
    rw [he] at hkey
    simp [Operation.addresses, hkey] at this
  | scan hp =>
    rintro rfl
    have := haddressed hp
    simp [Operation.addresses, Pager.start] at this

end

namespace Execution

variable {table : String} {key : RowKey} {e : Execution}

def Spares (table : String) (key : RowKey) (e : Execution) : Prop := ∀ step ∈ e.agenda, step.Spares table key

theorem spares_receivePage {pager : Pager} {patch : Patch} {page : EntityPage} {r : List Step}
    (hp : pager.table ≠ table) (hr : ∀ step ∈ r, step.Spares table key) :
    Spares table key (e.receivePage pager patch page r) := by
  intro step hs
  simp only [receivePage, Pager.receive] at hs
  split at hs
  · exact hr step hs
  · rename_i heq
    obtain ⟨-, rfl⟩ := Prod.mk.inj heq
    rcases List.mem_append.mp hs with hs | hs
    · obtain ⟨b, hb, rfl⟩ := List.mem_map.mp hs
      intro ht
      rw [(mem_chunkByPartition hb).1] at ht
      exact absurd ht hp
    · rcases List.mem_cons.mp hs with rfl | hs
      · exact hp
      · exact hr step hs

theorem confined_spares (table : String) (key : RowKey) : Confined (Spares table key) (·.Spares table key) := by
  intro e h
  obtain ⟨limits, agenda, stats⟩ := e
  cases agenda with
  | nil => exact Or.inl ⟨stats, rfl⟩
  | cons step r =>
    obtain ⟨hs, hr⟩ := List.forall_mem_cons.mp h
    cases step with
    | prepare t | recreate t => exact Or.inr (Or.inr ⟨_, _, rfl, trivial, fun _ => hr⟩)
    | drop t => exact Or.inr (Or.inr ⟨_, _, rfl, hs, fun _ => hr⟩)
    | submit b => exact Or.inr (Or.inr ⟨_, _, rfl, hs, fun _ => hr⟩)
    | scan pager patch =>
      rcases hx : pager.exhausted with _ | _
      · exact Or.inr (Or.inr ⟨_, _, next_scan hx, trivial, fun _ => spares_receivePage hs hr⟩)
      · exact Or.inr (Or.inl ⟨_, next_exhausted hx, hr⟩)

end Execution

/-- Where the ledger is in another store, an execution may reach any row. -/
theorem Execution.confined_sharing (shared : Bool) (table : String) (key : RowKey) :
    Confined (fun e => shared = true → e.Spares table key) (fun c => shared = true → c.Spares table key) := by
  intro e h
  cases shared with
  | true =>
    rcases confined_spares table key e (h rfl) with hdone | ⟨go, he, hgo⟩ | ⟨c, go, he, hc, hgo⟩
    · exact Or.inl hdone
    · exact Or.inr (Or.inl ⟨go, he, fun _ => hgo⟩)
    · exact Or.inr (Or.inr ⟨c, go, he, fun _ => hc, fun a _ => hgo a⟩)
  | false =>
    rcases e.next_cases with hdone | ⟨go, he⟩ | ⟨c, go, he⟩
    · exact Or.inl hdone
    · exact Or.inr (Or.inl ⟨go, he, nofun⟩)
    · exact Or.inr (Or.inr ⟨c, go, he, nofun, nofun⟩)

/-! ## a row of a store -/

theorem Rows.get?_writeAll {rows after : Rows} {actions : List BatchAction} (hw : Rows.writeAll rows actions = some after)
    {key : RowKey} (h : ∀ a ∈ actions, a.entity.key ≠ key) : after.get? key = rows.get? key := by
  have hkey := Rows.writeAll_eq_some_iff.mp hw key
  have hnone : actions.filter (·.entity.key = key) = [] := by
    rw [List.filter_eq_nil_iff]
    intro a ha he
    exact h a ha (of_decide_eq_true he)
  rw [hnone, List.foldlM_nil] at hkey
  exact (Option.some.inj hkey).symm

namespace MemoryStore

def row? (s : MemoryStore) (table : String) (key : RowKey) : Option Entity := (s.tables.get? table).bind (·.get? key)

theorem row?_withRows_self (s : MemoryStore) (table : String) (rows : Rows) (key : RowKey) :
    (s.withRows table rows).row? table key = rows.get? key := by
  rw [row?, get?_withRows_self, Option.bind_some]

theorem row?_rowsOf (s : MemoryStore) (table : String) (key : RowKey) :
    (s.rowsOf table).get? key = s.row? table key := by
  rw [rowsOf, row?]
  cases s.tables.get? table <;> rfl

theorem row?_spared (s : MemoryStore) {c : Call} {table : String} {key : RowKey} (h : c.Spares table key) :
    (TableStore.perform s c).2.row? table key = s.row? table key := by
  by_cases ht : c.table = table
  · subst ht
    cases c with
    | ensureTable t =>
      show (s.ensureTable t).row? t key = _
      rw [ensureTable_eq, row?_withRows_self, row?_rowsOf]; rfl
    | deleteTable t => exact absurd rfl h
    | getEntity | queryPage => rfl
    | submitBatch t p actions =>
      rcases submitBatch_cases s t p actions with ⟨e, he⟩ | ⟨rows, after, hrows, hw, hs⟩
      · show (s.submitBatch t p actions).2.row? t key = _
        rw [he]; rfl
      · show (s.submitBatch t p actions).2.row? t key = _
        rw [hs, row?_withRows_self, Rows.get?_writeAll hw (h rfl)]
        show _ = (s.tables.get? t).bind _
        rw [hrows]; rfl
  · rw [row?, perform_frame s c (Ne.symm ht), row?]

theorem perform_error {s : MemoryStore} {c : Call} {e : StoreError} (h : (TableStore.perform s c).1 = .error e) :
    (TableStore.perform s c).2 = s := by
  cases c with
  | ensureTable | deleteTable => cases h
  | getEntity | queryPage => rfl
  | submitBatch t p actions =>
    rcases submitBatch_cases s t p actions with ⟨e', he⟩ | ⟨rows, after, -, -, hs⟩
    · exact congrArg Prod.snd he
    · cases (congrArg Prod.fst hs).symm.trans h

end MemoryStore

/-! ## a record of the ledger -/

namespace Stores

variable {σ η : Type} [TableStore σ] [TableStore η] [MemoryLike σ] [MemoryLike η]

def record? (stores : Stores σ η) (table id : String) : Option Entity := stores.view.ledger.row? table (historyKey id)

variable {stores : Stores σ η} (h : stores.Reachable) {table id : String}

include h

theorem perform_error [Transparent σ] [Transparent η] {target : Target} {c : Call} {e : StoreError}
    (he : (stores.perform target c).1 = .error e) : (stores.perform target c).2 = stores := by
  apply eq_of_view (h.perform target c) h
  rw [perform_view h]
  rw [answer_view h] at he
  cases stores <;> cases target <;> simp only [view, perform] at he ⊢ <;> rw [MemoryStore.perform_error he]

/-- Whether a call leaves a record as it is: it is about the data, kept elsewhere, or spares the record's row. -/
theorem record?_spared {x : Target × Call}
    (hx : x.1 = .ledger ∨ stores.isShared = true → x.2.Spares table (historyKey id)) :
    (stores.perform x.1 x.2).2.record? table id = stores.record? table id := by
  obtain ⟨target, c⟩ := x
  rw [record?, perform_view h, record?]
  cases stores with
  | shared s => exact MemoryStore.row?_spared _ (hx (Or.inr rfl))
  | separate s l =>
    cases target with
    | data => rfl
    | ledger => exact MemoryStore.row?_spared _ (hx (Or.inl rfl))

/-- A migration that has a record is not recorded again: its record is in the way. -/
theorem refused_record {row : Entity} (hr : stores.record? table id = some row) :
    (stores.perform .ledger (recordCall table (historyRecord id))).1 =
      .error (.batchRejected 0 (.conflict table (historyKey id))) := by
  obtain ⟨rows, ht, hrow⟩ := Option.bind_eq_some_iff.mp hr
  exact (record_known h table ht (by simp [hrow])).1

/-- A call that writes a record is granted and writes it where there was none, or leaves it as it was. -/
theorem record?_record (table id : String) :
    let after := stores.perform .ledger (recordCall table (historyRecord id))
    (after.1 = .ok () ∧ stores.record? table id = none ∧ after.2.record? table id = some (historyRecord id)) ∨
      ((∃ e, after.1 = .error e) ∧ after.2.record? table id = stores.record? table id) := by
  intro after
  rcases ht : stores.ledgerTable table with _ | rows
  · obtain ⟨hanswer, hafter⟩ := ledgerTable_perform h table (recordCall table (historyRecord id))
    have ht : stores.view.ledger.tables.get? table = none := ht
    have hsubmit : TableStore.perform stores.view.ledger (recordCall table (historyRecord id)) =
        (.error (.tableNotFound table), stores.view.ledger) := by
      show stores.view.ledger.submitBatch table _ _ = _
      simp only [MemoryStore.submitBatch, checkBatch_record, ht]
    refine Or.inr ⟨⟨_, hanswer.trans (congrArg Prod.fst hsubmit)⟩, ?_⟩
    show (after.2.ledgerTable table).bind _ = (stores.ledgerTable table).bind _
    rw [hafter, hsubmit]; rfl
  · rcases hr : rows.get? (historyKey id) with _ | row
    · obtain ⟨hanswer, hafter⟩ := record_ledgerTable h table ht hr
      refine Or.inl ⟨hanswer, ?_, ?_⟩
      · show (stores.ledgerTable table).bind _ = none
        rw [ht, Option.bind_some, hr]
      · show (after.2.ledgerTable table).bind _ = _
        rw [hafter, Option.bind_some, SortedMap.get?_insert_self]
    · have hknown : rows.get? (historyKey id) ≠ none := by simp [hr]
      obtain ⟨hanswer, hafter⟩ := record_known h table ht hknown
      refine Or.inr ⟨⟨_, hanswer⟩, ?_⟩
      show (after.2.ledgerTable table).bind _ = (stores.ledgerTable table).bind _
      rw [hafter, ht]

theorem record?_asked {options : Options} {x : Target × Call}
    (hx : Asked options (fun c => stores.isShared = true → c.Spares options.historyTable (historyKey id)) x) :
    let after := stores.perform x.1 x.2
    (x = options.record id ∧ (∃ a, after.1 = .ok a) ∧ stores.record? options.historyTable id = none ∧
        after.2.record? options.historyTable id = some (historyRecord id)) ∨
      ((x = options.record id → ∃ e, after.1 = .error e) ∧
        after.2.record? options.historyTable id = stores.record? options.historyTable id) := by
  intro after
  by_cases hrecord : x = options.record id
  · subst hrecord
    rcases record?_record h options.historyTable id with ⟨hok, hnone, hafter⟩ | ⟨herror, hafter⟩
    · exact Or.inl ⟨rfl, ⟨_, hok⟩, hnone, hafter⟩
    · exact Or.inr ⟨fun _ => herror, hafter⟩
  · refine Or.inr ⟨fun he => absurd he hrecord, record?_spared h ?_⟩
    cases hx with
    | ensure | lookup => exact fun _ => trivial
    | record j =>
      intro _ _ a ha hkey
      rw [List.mem_singleton.mp ha] at hkey
      exact hrecord (congrArg options.record (congrArg RowKey.row hkey))
    | data hc =>
      rintro (hd | hs)
      · cases hd
      · exact hc hs

theorem record?_askedUnder {options : Options} {x : Target × Call} (cond : Conditions) (made : Nat)
    (hx : Asked options (fun c => stores.isShared = true → c.Spares options.historyTable (historyKey id)) x) :
    let after := performUnder cond made stores x.1 x.2
    (x = options.record id ∧ (∃ a, after.1 = .ok a) ∧ stores.record? options.historyTable id = none ∧
        after.2.record? options.historyTable id = some (historyRecord id)) ∨
      ((x = options.record id → ∃ e, after.1 = .error e) ∧
        after.2.record? options.historyTable id = stores.record? options.historyTable id) := by
  unfold performUnder
  cases cond.fault (made + 1) with
  | some e => exact Or.inr ⟨fun _ => ⟨e, rfl⟩, rfl⟩
  | none => exact record?_asked h hx

end Stores

/-! ## along a run -/

/-- Where the ledger shares a store with what the migrations are about, none of their operations reaches a record. -/
def Unaddressed (text : String → Except FileError String) (shared : Bool) (table : String)
    (migrations : List MigrationFile) (id : String) : Prop :=
  shared = true → ∀ m ∈ migrations, ∀ ops, m.operations (text m.path) = .ok ops →
    ∀ op ∈ ops, op.addresses table (historyKey id) = false

theorem Unobtrusive.unaddressed {σ η : Type} {text : String → Except FileError String} {stores : Stores σ η}
    {table : String} {migrations : List MigrationFile} (h : ∀ m ∈ migrations, Unobtrusive text stores table m)
    (id : String) : Unaddressed text stores.isShared table migrations id := by
  intro hs m hm ops hops op hop
  have := h m hm ops hops hs op hop
  simp [Operation.addresses, this]

namespace Run

/-- A run over these migrations whose execution, while it is in one, is in a state of `I`. -/
def Holds (I : Execution → Prop) (options : Options) (migrations : List MigrationFile) (r : Run) : Prop :=
  r.options = options ∧ (∀ m ∈ r.waiting, m ∈ migrations) ∧
    match r.stage with
    | .opening | .choosing => True
    | .reading m => m ∈ migrations
    | .applying _ x => I x

theorem holds_start (I : Execution → Prop) (options : Options) (migrations : List MigrationFile) :
    Holds I options migrations (start options migrations) := by
  refine ⟨rfl, ?_, trivial⟩
  intro m hm
  exact hm

section

variable {σ η : Type} [TableStore σ] [TableStore η] {text : String → Except FileError String} {cond : Conditions}
  {I : Execution → Prop} {P : Call → Prop} (hI : Execution.Confined I P) {options : Options}
  {migrations : List MigrationFile}

include hI

theorem Holds.asked {r : Run} (h : Holds I options migrations r) {guarded : Bool} {target : Target} {c : Call}
    {resume : Except StoreError c.Result → Except MigrateError Run} (hn : r.next = .call guarded target c resume) :
    Asked options P (target, c) := by
  obtain ⟨rfl, -, hstage⟩ := h
  have hturn := r.turn
  rw [hn] at hturn
  cases hturn with
  | opening => exact .ensure
  | choosing => exact .lookup _
  | recording => exact .record _
  | @applying id x c go hs hx =>
    rw [hs] at hstage
    have hnext := hI.next_all x hstage
    rw [hx] at hnext
    exact .data hnext.1.2

/-- What every execution of a run keeps, the run keeps. -/
theorem Holds.transition
    (hstart : ∀ m ∈ migrations, ∀ ops, m.operations (text m.path) = .ok ops → I (.start options.limits ops))
    {a b : Config σ η Run} {l : List (Target × Call)} (h : Holds I options migrations a.state)
    (ht : Transition (fun _ => text) cond a l b) : Holds I options migrations b.state := by
  have honward : a.state.Onward text l b.state := onward ht
  obtain ⟨rfl, hwaiting, hstage⟩ := h
  generalize a.state = r at honward hwaiting hstage hstart
  generalize b.state = r' at honward
  cases honward with
  | opening | recording => exact ⟨rfl, hwaiting, trivial⟩
  | choosing found hs hw =>
    rw [hw] at hwaiting
    obtain ⟨hm, hrest⟩ := List.forall_mem_cons.mp hwaiting
    cases found with
    | none => exact ⟨rfl, hrest, hm⟩
    | some row =>
      refine ⟨rfl, hrest, ?_⟩
      show match r.stage with | .opening | .choosing => True | .reading _ => _ | .applying .. => _
      rw [hs]
      trivial
  | reading hs hops =>
    rw [hs] at hstage
    exact ⟨rfl, hwaiting, hstart _ hstage _ hops⟩
  | @pausing id x go hs hx =>
    rw [hs] at hstage
    have hnext := hI.next_all x hstage
    rw [hx] at hnext
    exact ⟨rfl, hwaiting, hnext⟩
  | @applying id x c go answer hs hx =>
    rw [hs] at hstage
    have hnext := hI.next_all x hstage
    rw [hx] at hnext
    exact ⟨rfl, hwaiting, hnext.2 (.ok answer)⟩

end

end Run

/-- A run over migrations that do not reach a record asks for nothing that reaches it but its writing. -/
def Run.Respects (text : String → Except FileError String) (shared : Bool) (options : Options)
    (migrations : List MigrationFile) (id : String) (r : Run) : Prop :=
  Unaddressed text shared options.historyTable migrations id ∧
    r.Holds (fun x => shared = true → x.Spares options.historyTable (historyKey id)) options migrations

section

variable {σ η : Type} [TableStore σ] [TableStore η] {text : String → Except FileError String} {cond : Conditions}
  {options : Options} {migrations : List MigrationFile} {id : String} {shared : Bool}

theorem Run.respects_start (h : Unaddressed text shared options.historyTable migrations id) :
    (Run.start options migrations).Respects text shared options migrations id :=
  ⟨h, holds_start _ options migrations⟩

theorem Run.Respects.asked {r : Run} (h : r.Respects text shared options migrations id) {guarded : Bool}
    {target : Target} {c : Call} {resume : Except StoreError c.Result → Except MigrateError Run}
    (hn : r.next = .call guarded target c resume) :
    Asked options (fun c => shared = true → c.Spares options.historyTable (historyKey id)) (target, c) :=
  h.2.asked (Execution.confined_sharing shared options.historyTable (historyKey id)) hn

theorem Run.Respects.transition {a b : Config σ η Run} {l : List (Target × Call)}
    (h : a.state.Respects text shared options migrations id) (ht : Transition (fun _ => text) cond a l b) :
    b.state.Respects text shared options migrations id := by
  refine ⟨h.1, h.2.transition (Execution.confined_sharing shared options.historyTable (historyKey id)) ?_ ht⟩
  intro m hm ops hops hs step hstep
  exact spares_planSteps (h.1 hs m hm ops hops) hstep

variable [MemoryLike σ] [MemoryLike η]

/-- On its way a run writes a record where there is none, or leaves it as it is. -/
theorem Path.record? {n : Nat} {a b : Config σ η Run} {l : List (Target × Call)} (hreach : a.stores.Reachable)
    (h : a.state.Respects text a.stores.isShared options migrations id) (hp : Path (fun _ => text) .calm n a l b) :
    (options.record id ∈ l ∧ a.stores.record? options.historyTable id = none ∧
        b.stores.record? options.historyTable id = some (historyRecord id)) ∨
      (options.record id ∉ l ∧
        b.stores.record? options.historyTable id = a.stores.record? options.historyTable id) := by
  induction hp with
  | refl a => exact Or.inr ⟨List.not_mem_nil, rfl⟩
  | @step n a b c l m ht _ ih =>
    have hrespects := h.transition ht
    cases ht with
    | checkpoint | read => exact ih hreach hrespects
    | @call guarded target call resume p hn _ hr =>
      have hgranted : ∃ answer, (a.stores.perform target call).1 = .ok answer := Run.granted hn hr
      rw [← a.stores.isShared_perform target call] at hrespects
      have hrest := ih (hreach.perform target call) hrespects
      have hafter : (performUnder .calm a.made a.stores target call).2 = (a.stores.perform target call).2 := rfl
      simp only [hafter, List.singleton_append, List.mem_cons] at hrest ⊢
      rcases Stores.record?_asked hreach (h.asked hn) with ⟨hx, -, hnone, hsome⟩ | ⟨hx, hsame⟩
      · refine Or.inl ⟨Or.inl hx.symm, hnone, ?_⟩
        rcases hrest with ⟨-, habsurd, -⟩ | ⟨-, hkept⟩
        · cases hsome.symm.trans habsurd
        · exact hkept.trans hsome
      · have hne : options.record id ≠ (target, call) := by
          intro he
          obtain ⟨e, herror⟩ := hx he.symm
          obtain ⟨answer, hok⟩ := hgranted
          cases herror.symm.trans hok
        rcases hrest with ⟨hmem, hnone, hsome⟩ | ⟨hnot, hkept⟩
        · exact Or.inl ⟨Or.inr hmem, hsame.symm.trans hnone, hsome⟩
        · exact Or.inr ⟨fun hmem => hmem.elim hne hnot, hkept.trans hsame⟩

end

end TableMigrations
