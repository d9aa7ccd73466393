/-
  TableMigrations.Proofs.Batches — what is asked of a store is what any store accepts.

  A batch has at least one action, no more than the limit, and all of its partition; a page has at least one row. That
  is so of the steps that are planned, whatever the options (`obeys_planSteps`), and of those that a page adds, whatever
  rows the store has answered with (`obeys_receivePage`); so it is so of every call, however the stores behave and
  wherever the process is stopped.
-/
import TableMigrations.Proofs.Turns

namespace TableMigrations

/-! ## the rules -/

/-- The rules of a call: a batch has from one to `size` actions, all of its partition, and a page at least one row. -/
def Call.Obeys (size : Nat) : Call → Prop
  | .submitBatch _ partition actions =>
    1 ≤ actions.length ∧ actions.length ≤ size ∧ ∀ a ∈ actions, a.partition = partition
  | .queryPage _ pageSize _ => 1 ≤ pageSize
  | .ensureTable _ | .deleteTable _ | .getEntity .. => True

/-- The check that every store makes of a batch has nothing against it. -/
def Call.Unobjectionable : Call → Prop
  | .submitBatch _ partition actions => checkBatch partition actions = .ok ()
  | .ensureTable _ | .deleteTable _ | .getEntity .. | .queryPage .. => True

theorem Call.Obeys.unobjectionable {size : Nat} (hs : size ≤ maxBatchActions) {c : Call} (h : c.Obeys size) :
    c.Unobjectionable := by
  cases c with
  | submitBatch t p actions =>
    obtain ⟨-, hle, hp⟩ := h
    exact checkBatch_eq_ok_iff.mpr ⟨by omega, hp⟩
  | ensureTable | deleteTable | getEntity | queryPage => trivial

def Step.Obeys (size : Nat) : Step → Prop
  | .submit b => (Call.submitBatch b.table b.partition b.actions).Obeys size
  | .scan pager _ => 1 ≤ pager.pageSize
  | .prepare _ | .drop _ | .recreate _ => True

/-- Not a refusal to send an operation as an action, of whatever migration. -/
def MigrateError.Supported (e : MigrateError) : Prop := ∀ mode, e.cause ≠ .unsupportedOperation mode

/-! ## executions -/

section

variable {limits : Limits} {size : Nat}

theorem obeys_submitSteps (hl : max limits.batch 1 ≤ size) {table : String} {actions : List BatchAction} {step : Step}
    (h : step ∈ submitSteps table actions limits) : step.Obeys size := by
  obtain ⟨b, hb, rfl⟩ := List.mem_map.mp h
  obtain ⟨-, hne, hlen, hp⟩ := mem_chunkByPartition hb
  exact ⟨List.length_pos_iff.mpr hne, by omega, fun a ha => (hp a ha).2⟩

theorem obeys_changeSteps (hl : max limits.batch 1 ≤ size) {table : String} {gathered : List BatchAction}
    {changes : List Change} : ∀ step ∈ changeSteps limits table gathered changes, step.Obeys size := by
  induction changes generalizing gathered with
  | nil => exact fun step h => obeys_submitSteps hl h
  | cons c r ih =>
    cases c with
    | row kind e => exact ih
    | deleteAll => exact List.forall_mem_cons.mpr ⟨trivial, List.forall_mem_cons.mpr ⟨trivial, ih⟩⟩
    | updateAll patch =>
      refine List.forall_mem_append.mpr ⟨fun step h => obeys_submitSteps hl h, List.forall_mem_cons.mpr ⟨?_, ih⟩⟩
      show 1 ≤ max limits.page 1
      omega

theorem obeys_planSteps (hl : max limits.batch 1 ≤ size) (ops : List Operation) :
    ∀ step ∈ planSteps limits ops, step.Obeys size := by
  intro step h
  obtain ⟨g, -, hs⟩ := List.mem_flatMap.mp h
  rcases List.mem_cons.mp hs with rfl | hs
  · trivial
  · exact obeys_changeSteps hl step hs

namespace Execution

/-- All that remains to be done obeys the rules, and so will the batches of the pages to come. -/
def Obeys (size : Nat) (e : Execution) : Prop := max e.limits.batch 1 ≤ size ∧ ∀ step ∈ e.agenda, step.Obeys size

theorem obeys_receivePage {e : Execution} {pager : Pager} {patch : Patch} {rest : List Step}
    (hl : max e.limits.batch 1 ≤ size) (hp : 1 ≤ pager.pageSize) (hr : ∀ step ∈ rest, step.Obeys size)
    (page : EntityPage) : (e.receivePage pager patch page rest).Obeys size := by
  simp only [receivePage, Pager.receive]
  split
  · exact ⟨hl, hr⟩
  · rename_i heq
    obtain ⟨-, rfl⟩ := Prod.mk.inj heq
    exact ⟨hl, List.forall_mem_append.mpr ⟨fun step h => obeys_submitSteps hl h, List.forall_mem_cons.mpr ⟨hp, hr⟩⟩⟩

theorem next_all {e : Execution} (h : e.Obeys size) :
    e.next.All (Obeys size) (fun x => x.1 = .data ∧ x.2.Obeys size) MigrateError.Supported := by
  obtain ⟨limits, agenda, stats⟩ := e
  obtain ⟨hl, hagenda⟩ := h
  have hfail : ∀ {c : Call} {go : c.Result → Execution}, (∀ answer, (go answer).Obeys size) →
      ∀ answer, Leads (Obeys size) MigrateError.Supported (orFail go answer) := by
    intro c go hgo answer
    cases answer with
    | ok a => exact hgo a
    | error e => exact nofun
  cases agenda with
  | nil => exact nofun
  | cons step r =>
    obtain ⟨hs, hr⟩ := List.forall_mem_cons.mp hagenda
    cases step with
    | prepare t | drop t | recreate t => exact ⟨⟨rfl, trivial⟩, hfail fun _ => ⟨hl, hr⟩⟩
    | submit b => exact ⟨⟨rfl, hs⟩, hfail fun _ => ⟨hl, hr⟩⟩
    | scan pager patch =>
      rcases hx : pager.exhausted with _ | _
      · rw [next_scan hx]
        exact ⟨⟨rfl, hs⟩, hfail fun page => obeys_receivePage hl hs hr page⟩
      · rw [next_exhausted hx]
        exact ⟨hl, hr⟩

theorem obeys_start (batch page : Nat) (ops : List Operation) :
    (start (.within batch page) ops).Obeys (min 100 (max 1 batch)) := by
  have hl : max (Limits.within batch page).batch 1 ≤ min 100 (max 1 batch) := by
    simp only [Limits.within, maxBatchActions]
    omega
  exact ⟨hl, obeys_planSteps hl ops⟩

end Execution

end

/-! ## runs -/

namespace Run

/-- What a run asks of the stores: what the rules allow, and of the ledger a batch only if it is a record. -/
def Asks (size : Nat) (x : Target × Call) : Prop :=
  x.2.Obeys size ∧ ∀ table partition actions, x = (.ledger, .submitBatch table partition actions) → actions.length = 1

structure Obeys (size : Nat) (r : Run) : Prop where
  size_eq : min 100 (max 1 r.options.maxBatchSize) = size
  execution : ∀ {id x}, r.stage = .applying id x → x.Obeys size

variable {size : Nat} {r : Run}

theorem Obeys.to {r' : Run} (h : r.Obeys size) (ho : r'.options = r.options) (hs : ∀ id x, r'.stage ≠ .applying id x) :
    r'.Obeys size := by
  refine ⟨ho ▸ h.size_eq, ?_⟩
  intro id x hx
  exact absurd hx (hs id x)

theorem Obeys.within (h : r.Obeys size) (id : String) {answer : Except MigrateError Execution}
    (ha : Leads (Execution.Obeys size) MigrateError.Supported answer) :
    Leads (Obeys size) MigrateError.Supported (r.within id answer) := by
  cases answer with
  | ok x =>
    refine ⟨h.size_eq, ?_⟩
    intro id' x' hs
    cases hs
    exact ha
  | error e => exact ha

theorem Obeys.received (h : r.Obeys size) (m : MigrationFile) (content : Except FileError String) :
    Leads (Obeys size) MigrateError.Supported (r.received m content) := by
  unfold Run.received
  rcases hops : m.operations content with e | ops
  · show MigrateError.Supported (.migration m.id e)
    unfold MigrationFile.operations at hops
    split at hops
    · cases hops
      nofun
    · split at hops
      · cases hops
        nofun
      · cases hops
  · refine ⟨h.size_eq, ?_⟩
    intro id x hs
    cases hs
    rw [← h.size_eq]
    exact Execution.obeys_start _ _ ops

theorem Obeys.recorded (h : r.Obeys size) (id : String) (answer : Except StoreError Unit) :
    Leads (Obeys size) MigrateError.Supported (r.recorded id answer) := by
  cases answer with
  | ok u => exact h.to rfl nofun
  | error e =>
    show MigrateError.Supported
      (.migration id (if e.ofRecord.isConflict then .historyConflict id else .store e.ofRecord))
    split <;> nofun

/-- The record of a migration is a batch of one action, of the record's partition. -/
theorem Obeys.asks_record (h : r.Obeys size) (id : String) : Asks size (r.options.record id) := by
  have hsize := h.size_eq
  refine ⟨⟨Nat.le_refl 1, ?_, ?_⟩, ?_⟩
  · show 1 ≤ size
    omega
  · intro a ha
    rw [List.mem_singleton.mp ha]; rfl
  · intro table partition actions hx
    cases hx
    rfl

theorem next_all (h : r.Obeys size) : r.next.All (Obeys size) (Asks size) MigrateError.Supported := by
  have hturn := r.turn
  generalize r.next = n at hturn
  cases hturn with
  | done hs hw => exact nofun
  | opening hs hok herror =>
    refine ⟨⟨trivial, nofun⟩, ?_⟩
    intro answer
    cases answer with
    | ok u => rw [hok]; exact h.to rfl nofun
    | error e => rw [herror]; exact nofun
  | choosing hs hw hok herror =>
    refine ⟨⟨trivial, nofun⟩, ?_⟩
    intro answer
    cases answer with
    | error e => rw [herror]; exact nofun
    | ok found =>
      rw [hok]
      cases found with
      | none => exact h.to rfl nofun
      | some record => exact h.to rfl (by simp [Run.lookedUp, hs])
  | reading hs => exact h.received _
  | @pausing id x go hs hn =>
    have hx := Execution.next_all (h.execution hs)
    rw [hn] at hx
    refine ⟨h.size_eq, ?_⟩
    intro id' x' hs'
    cases hs'
    exact hx
  | @applying id x c go hs hn =>
    have hx := Execution.next_all (h.execution hs)
    rw [hn] at hx
    obtain ⟨⟨-, hcall⟩, hanswer⟩ := hx
    exact ⟨⟨hcall, nofun⟩, fun answer => h.within id (hanswer answer)⟩
  | @recording id x stats hs hn => exact ⟨h.asks_record id, h.recorded id⟩

end Run

/-! ## every course -/

/-- What was asked of the stores obeys the rules, with at most `size` actions in a batch and one in a record's, and
    what failed did not fail for an operation that cannot be sent. -/
structure Course.Obeys {σ η α : Type} (size : Nat) (c : Course σ η α) : Prop where
  calls : ∀ x ∈ c.calls, Run.Asks size x ∧ x.2.Unobjectionable
  outcome : ∀ e, c.outcome = some (.error e) → e.Supported

section

variable {σ η : Type} [TableStore σ] [TableStore η]

theorem Execution.obeys_follow (files : FileReader σ) (cond : Conditions) (fuel : Nat) (batch page : Nat)
    (ops : List Operation) (stores : Stores σ η) :
    (follow files cond fuel 0 stores (Execution.start (.within batch page) ops)).Obeys (min 100 (max 1 batch)) := by
  obtain ⟨hcalls, houtcome⟩ := follow_all files cond (fun _ => Execution.next_all) nofun fuel
    (a := ⟨0, stores, _⟩) (Execution.obeys_start batch page ops)
  refine ⟨?_, houtcome⟩
  intro x hx
  obtain ⟨hdata, hobeys⟩ := hcalls x hx
  refine ⟨⟨hobeys, ?_⟩, hobeys.unobjectionable (Nat.min_le_left _ _)⟩
  intro table partition actions he
  rw [he] at hdata
  cases hdata

theorem Run.obeys_follow (files : FileReader σ) (cond : Conditions) (fuel : Nat) (options : Options)
    (migrations : List MigrationFile) (stores : Stores σ η) :
    (follow files cond fuel 0 stores (Run.start options migrations)).Obeys (min 100 (max 1 options.maxBatchSize)) := by
  obtain ⟨hcalls, houtcome⟩ := follow_all files cond (fun _ => Run.next_all) nofun fuel
    (a := ⟨0, stores, Run.start options migrations⟩) ⟨rfl, nofun⟩
  refine ⟨?_, houtcome⟩
  intro x hx
  exact ⟨hcalls x hx, (hcalls x hx).1.unobjectionable (Nat.min_le_left _ _)⟩

/-- Whatever the options, the operations, the stores and what befalls the work from outside, every call of an execution
    and of a run obeys the rules, also of one that goes on for longer than well-behaved stores would let it. The row
    operations, of which the batches are made, can all be sent as actions. -/
theorem rules_obeyed (files : FileReader σ) (cond : Conditions) (stores : Stores σ η) :
    (∀ batch page ops, (execute cond (.within batch page) ops stores).Obeys (min 100 (max 1 batch)) ∧
      ∀ fuel, (follow files cond fuel 0 stores (Execution.start (.within batch page) ops)).Obeys
        (min 100 (max 1 batch))) ∧
    (∀ options migrations, (run files cond options migrations stores).Obeys (min 100 (max 1 options.maxBatchSize)) ∧
      ∀ fuel, (follow files cond fuel 0 stores (Run.start options migrations)).Obeys
        (min 100 (max 1 options.maxBatchSize))) ∧
    ∀ table kind e, (⟨table, .row kind e⟩ : Operation).toAction = .ok (.ofRow kind e) := by
  refine ⟨?_, ?_, fun _ _ _ => rfl⟩
  · intro batch page ops
    exact ⟨Execution.obeys_follow _ cond _ batch page ops stores,
      fun fuel => Execution.obeys_follow files cond fuel batch page ops stores⟩
  · intro options migrations
    exact ⟨Run.obeys_follow files cond _ options migrations stores,
      fun fuel => Run.obeys_follow files cond fuel options migrations stores⟩

end

end TableMigrations
