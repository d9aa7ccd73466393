/-
  TableMigrations.Proofs.Effects — what planned steps do to a memory store, told without pages and answers.

  `Step.effect` is a step's whole effect; a scan patches every row at once. The effects of a plan are settled here:
  they keep rows under their own keys and add no more rows than there are row writes, and those of the batches of one
  table are the effects of its writes in order.
-/
import TableMigrations.Proofs.Memory

namespace TableMigrations

/-! ## batches that stores accept -/

/-- Limits under which no batch is refused for its size. -/
structure Limits.Sound (l : Limits) : Prop where
  batch_pos : 1 ≤ l.batch
  batch_le : l.batch ≤ maxBatchActions

theorem Limits.within_sound (batch page : Nat) : (Limits.within batch page).Sound := by
  have : 1 ≤ maxBatchActions := by decide
  constructor
  · simp only [Limits.within]; omega
  · simp only [Limits.within]; omega

def Batch.Accepted (b : Batch) : Prop := checkBatch b.partition b.actions = .ok ()

theorem accepted_of_mem_chunkByPartition {table : String} {actions : List BatchAction} {limits : Limits}
    (hl : limits.Sound) {b : Batch} (h : b ∈ chunkByPartition table actions limits.batch) : b.Accepted := by
  obtain ⟨-, -, hlen, hp⟩ := mem_chunkByPartition h
  have := hl.batch_le
  have := hl.batch_pos
  refine checkBatch_eq_ok_iff.mpr ⟨by omega, ?_⟩
  intro a ha
  exact (hp a ha).2

/-! ## effects -/

namespace Step

/-- What a step does to a store when nothing comes between; nothing if the store refuses it. -/
def effect (s : MemoryStore) : Step → Option MemoryStore
  | .prepare t | .recreate t => some (s.ensureTable t)
  | .drop t => some (s.deleteTable t)
  | .submit b =>
    match s.submitBatch b.table b.partition b.actions with
    | (.ok (), after) => some after
    | (.error _, _) => none
  | .scan pager patch => (s.tables.get? pager.table).map fun rows => s.withRows pager.table (rows.patchAll patch)

/-- The row writes that a step asks for by itself; those of a scan are not known before. -/
def writes : Step → Nat
  | .submit b => b.actions.length
  | .prepare _ | .drop _ | .recreate _ | .scan .. => 0

end Step

def effects (s : MemoryStore) (steps : List Step) : Option MemoryStore := steps.foldlM (fun s step => step.effect s) s

theorem effects_cons (s : MemoryStore) (step : Step) (r : List Step) :
    effects s (step :: r) = (step.effect s).bind (effects · r) := rfl

theorem effects_append (s : MemoryStore) (l r : List Step) : effects s (l ++ r) = (effects s l).bind (effects · r) := by
  unfold effects
  rw [List.foldlM_append]; rfl

theorem effect_submit_of_some {s : MemoryStore} {b : Batch} {rows after : Rows} (hb : b.Accepted)
    (ht : s.tables.get? b.table = some rows) (hw : Rows.writeAll rows b.actions = some after) :
    (Step.submit b).effect s = some (s.withRows b.table after) := by
  simp only [Step.effect, MemoryStore.submitBatch_of_some hb ht hw]

theorem effect_submit_of_none {s : MemoryStore} {b : Batch} {rows : Rows} (hb : b.Accepted)
    (ht : s.tables.get? b.table = some rows) (hw : Rows.writeAll rows b.actions = none) :
    (Step.submit b).effect s = none := by
  obtain ⟨e, he⟩ := MemoryStore.submitBatch_of_none hb ht hw
  simp only [Step.effect, he]

/-- The effect of a batch is what its call leaves. -/
theorem perform_of_submit {s after : MemoryStore} {b : Batch} (he : (Step.submit b).effect s = some after) :
    (TableStore.perform s (.submitBatch b.table b.partition b.actions)).2 = after := by
  simp only [Step.effect] at he
  split at he
  · rename_i hs
    cases he
    exact congrArg Prod.snd hs
  · cases he

theorem effect_wellFiled {s after : MemoryStore} {step : Step} (h : s.WellFiled) (he : step.effect s = some after) :
    after.WellFiled := by
  cases step with
  | prepare t | recreate t => cases he; exact h.perform (.ensureTable t)
  | drop t => cases he; exact h.deleteTable t
  | submit b => rw [← perform_of_submit he]; exact h.perform _
  | scan pager patch =>
    obtain ⟨rows, ht, rfl⟩ := Option.map_eq_some_iff.mp he
    exact h.withRows ((h.rows ht).patchAll patch)

theorem effect_rowTotal {s after : MemoryStore} {step : Step} (he : step.effect s = some after) :
    TableStore.rowTotal after ≤ TableStore.rowTotal s + step.writes := by
  cases step with
  | prepare t | recreate t => cases he; exact s.rowTotal_perform (.ensureTable t)
  | drop t => cases he; exact s.rowTotal_perform (.deleteTable t)
  | submit b => rw [← perform_of_submit he]; exact s.rowTotal_perform _
  | scan pager patch =>
    obtain ⟨rows, ht, rfl⟩ := Option.map_eq_some_iff.mp he
    have := s.rowTotal_withRows pager.table (rows.patchAll patch)
    have hsize : (rows.patchAll patch).size = rows.size := rows.size_mapValues _
    rw [MemoryStore.rowsOf_eq ht, hsize] at this
    simp only [Step.writes]; omega

theorem effects_wellFiled {s after : MemoryStore} {steps : List Step} (h : s.WellFiled)
    (he : effects s steps = some after) : after.WellFiled := by
  induction steps generalizing s with
  | nil => cases he; exact h
  | cons step r ih =>
    rw [effects_cons] at he
    obtain ⟨mid, hm, he⟩ := Option.bind_eq_some_iff.mp he
    exact ih (effect_wellFiled h hm) he

theorem effects_rowTotal {s after : MemoryStore} {steps : List Step} (he : effects s steps = some after) :
    TableStore.rowTotal after ≤ TableStore.rowTotal s + (steps.map Step.writes).sum := by
  induction steps generalizing s with
  | nil => cases he; simp
  | cons step r ih =>
    rw [effects_cons] at he
    obtain ⟨mid, hm, he⟩ := Option.bind_eq_some_iff.mp he
    have := ih he
    have := effect_rowTotal hm
    simp only [List.map_cons, List.sum_cons]; omega

/-! ## the batches of one table -/

/-- Batches of one table do what their writes do one after another. -/
theorem effects_submits {table : String} {batches : List Batch} {s : MemoryStore} {rows : Rows}
    (hb : ∀ b ∈ batches, b.Accepted ∧ b.table = table) (ht : s.tables.get? table = some rows) :
    effects s (batches.map .submit) = (Rows.writeAll rows (batches.flatMap (·.actions))).map (s.withRows table) := by
  induction batches generalizing s rows with
  | nil => exact congrArg some (MemoryStore.withRows_self ht).symm
  | cons b r ih =>
    obtain ⟨hacc, htab⟩ := hb b List.mem_cons_self
    have hr : ∀ b ∈ r, b.Accepted ∧ b.table = table := by
      intro b h
      exact hb b (List.mem_cons_of_mem _ h)
    subst htab
    rw [List.map_cons, effects_cons, List.flatMap_cons, Rows.writeAll_append]
    rcases hw : Rows.writeAll rows b.actions with _ | mid
    · rw [effect_submit_of_none hacc ht hw]; rfl
    · rw [effect_submit_of_some hacc ht hw, Option.bind_some, Option.bind_some,
        ih hr (s.get?_withRows_self b.table mid), s.withRows_over]

theorem effects_submitSteps {limits : Limits} (hl : limits.Sound) {table : String} {s : MemoryStore} {rows : Rows}
    (ht : s.tables.get? table = some rows) (actions : List BatchAction) :
    effects s (submitSteps table actions limits) = (Rows.writeAll rows actions).map (s.withRows table) := by
  have hb : ∀ b ∈ chunkByPartition table actions limits.batch, b.Accepted ∧ b.table = table := by
    intro b hb
    exact ⟨accepted_of_mem_chunkByPartition hl hb, (mem_chunkByPartition hb).1⟩
  rw [submitSteps, effects_submits hb ht, Rows.writeAll_chunkByPartition]

/-! ## what a plan writes -/

theorem writes_submitSteps (limits : Limits) (table : String) (actions : List BatchAction) :
    ((submitSteps table actions limits).map Step.writes).sum = actions.length := by
  rw [← (perm_chunkByPartition table actions limits.batch).length_eq, List.length_flatMap, submitSteps, List.map_map]
  rfl

theorem writes_changeSteps (limits : Limits) (table : String) (gathered : List BatchAction) (ops : List Operation) :
    ((changeSteps limits table gathered (ops.map (·.change))).map Step.writes).sum =
      gathered.length + (ops.filterMap Operation.action?).length := by
  induction ops generalizing gathered with
  | nil => rw [List.map_nil, changeSteps, writes_submitSteps]; simp
  | cons op r ih =>
    rcases hc : op.change with ⟨kind, e⟩ | patch | -
    · have ha : op.action? = some (.ofRow kind e) := by simp only [Operation.action?, hc]
      rw [List.map_cons, hc, changeSteps_row, ih, List.filterMap_cons_some ha]
      simp only [List.length_append, List.length_cons, List.length_nil]
      omega
    · have ha : op.action? = none := by simp only [Operation.action?, hc]
      rw [List.map_cons, hc, changeSteps, List.map_append, List.sum_append, writes_submitSteps, List.map_cons,
        List.sum_cons, ih, List.filterMap_cons_none ha]
      simp only [Step.writes, List.length_nil, Nat.zero_add]
    · have ha : op.action? = none := by simp only [Operation.action?, hc]
      rw [List.map_cons, hc, changeSteps, List.map_cons, List.sum_cons, List.map_cons, List.sum_cons, ih,
        List.filterMap_cons_none ha]
      simp only [Step.writes, Nat.zero_add]

/-- A plan writes by itself what the row operations write. -/
theorem writes_planSteps_eq (limits : Limits) (ops : List Operation) :
    ((planSteps limits ops).map Step.writes).sum = (ops.filterMap Operation.action?).length := by
  have hgroup : ∀ g : TableGroup, ((g.steps limits).map Step.writes).sum =
      (g.operations.filterMap Operation.action?).length := by
    intro g
    have := writes_changeSteps limits g.table [] g.operations
    rw [TableGroup.steps, List.map_cons, List.sum_cons, this]
    simp only [Step.writes, List.length_nil, Nat.zero_add]
  have hall := ((flatMap_classify_perm (fun op : Operation => op.table) ops).filterMap Operation.action?).length_eq
  rw [← hall, planSteps, List.filterMap_flatMap, List.length_flatMap, groupByTable, List.flatMap_map, List.flatMap_def,
    List.map_flatten, List.sum_flatten, List.map_map, List.map_map]
  congr 1
  apply List.map_congr_left
  intro c _
  exact hgroup ⟨c.1, c.2⟩

theorem writes_planSteps (limits : Limits) (ops : List Operation) :
    ((planSteps limits ops).map Step.writes).sum ≤ ops.length := by
  rw [writes_planSteps_eq]
  exact List.length_filterMap_le Operation.action? ops

end TableMigrations
