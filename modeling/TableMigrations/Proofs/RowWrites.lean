/-
  TableMigrations.Proofs.RowWrites — row writes one at a time, and why their order across keys does not matter.

  `ActionKind.rule` states the single-row rules apart from any store; `Rows.write` applies one to a table's rows and
  `Rows.writeAll` a list of them in turn. What a list of writes makes of a row is told by the writes to that row's key
  alone (`writeAll_eq_some_iff`), so lists that agree key by key do the same (`writeAll_congr`): sorting writes by
  partition changes nothing. A batch does what its writes do one at a time (`applyActions_toOption`).
-/
import TableMigrations.Proofs.SortedMap
import TableMigrations.Proofs.Plan
import TableMigrations.Execution

namespace TableMigrations

/-! ## merging -/

namespace Entity

theorem get?_merge (row e : Entity) (name : String) :
    (row.merge e).get? name = (e.get? name).or (row.get? name) :=
  row.properties.get?_insertAll e.properties name

theorem merge_merge (row e : Entity) : row.merge (row.merge e) = row.merge e :=
  congrArg (Entity.mk row.key) (SortedMap.insertAll_insertAll _ _)

end Entity

/-! ## the rules -/

/-- What a row write makes of what is filed under its key, `none` standing for no row. It is refused where there is no
    rule: an insertion wants a missing row, updates and deletion an existing one. -/
def ActionKind.rule (kind : ActionKind) (e : Entity) (existing : Option Entity) : Option (Option Entity) :=
  match kind, existing with
  | .add, none => some (some e)
  | .updateMerge, some row => some (some (row.merge e))
  | .updateReplace, some _ => some (some e)
  | .delete, some _ => some none
  | .upsertMerge, none => some (some e)
  | .upsertMerge, some row => some (some (row.merge e))
  | .upsertReplace, _ => some (some e)
  | .add, some _ | .updateMerge, none | .updateReplace, none | .delete, none => none

namespace Rows

def file (rows : Rows) (key : RowKey) : Option Entity → Rows
  | some row => rows.insert key row
  | none => rows.erase key

def write (rows : Rows) (kind : ActionKind) (e : Entity) : Option Rows :=
  (kind.rule e (rows.get? e.key)).map (rows.file e.key)

def writeAll (rows : Rows) (actions : List BatchAction) : Option Rows :=
  actions.foldlM (fun rows a => write rows a.kind a.entity) rows

@[simp] theorem writeAll_nil (rows : Rows) : writeAll rows [] = some rows := rfl

theorem writeAll_cons (rows : Rows) (a : BatchAction) (r : List BatchAction) :
    writeAll rows (a :: r) = (write rows a.kind a.entity).bind (writeAll · r) := rfl

theorem writeAll_append (rows : Rows) (l r : List BatchAction) :
    writeAll rows (l ++ r) = (writeAll rows l).bind (writeAll · r) := by
  unfold writeAll
  rw [List.foldlM_append]; rfl

theorem get?_file (rows : Rows) (j k : RowKey) (row : Option Entity) :
    (file rows k row).get? j = if j = k then row else rows.get? j := by
  by_cases h : j = k
  · subst h
    rw [if_pos rfl]
    cases row with
    | none => exact rows.get?_erase_self j
    | some row => exact rows.get?_insert_self j row
  · rw [if_neg h]
    cases row with
    | none => exact rows.get?_erase_ne h
    | some row => exact rows.get?_insert_ne row h

/-! ## key by key -/

/-- Writes succeed and give `after` exactly when, for each key, those to it lead from its row before to its row
    after. -/
theorem writeAll_eq_some_iff {rows after : Rows} {actions : List BatchAction} :
    writeAll rows actions = some after ↔
      ∀ k, (actions.filter (·.entity.key = k)).foldlM (fun row a => a.kind.rule a.entity row) (rows.get? k) =
        some (after.get? k) := by
  induction actions generalizing rows with
  | nil =>
    simp only [writeAll_nil, Option.some.injEq, List.filter_nil, List.foldlM_nil]
    constructor
    · intro h k
      rw [h]; rfl
    · intro h
      apply SortedMap.ext_get?
      intro k
      exact Option.some.inj (h k)
  | cons a r ih =>
    rcases hw : a.kind.rule a.entity (rows.get? a.entity.key) with _ | row
    · -- the write is refused, and so is its key's list
      have hn : write rows a.kind a.entity = none := by rw [write, hw]; rfl
      rw [writeAll_cons, hn]
      constructor
      · intro h
        cases h
      · intro h
        have := h a.entity.key
        simp only [List.filter_cons, decide_true, if_true, List.foldlM_cons, hw] at this
        cases this
    · have hs : write rows a.kind a.entity = some (file rows a.entity.key row) := by rw [write, hw]; rfl
      rw [writeAll_cons, hs, Option.bind_some, ih]
      apply forall_congr'
      intro k
      rw [get?_file]
      by_cases hk : a.entity.key = k
      · subst hk
        simp only [List.filter_cons, decide_true, if_true, List.foldlM_cons, hw]
        rfl
      · simp only [List.filter_cons, hk, decide_false, Ne.symm hk, if_false]
        rfl

theorem writeAll_congr (rows : Rows) {l r : List BatchAction}
    (h : ∀ k, l.filter (·.entity.key = k) = r.filter (·.entity.key = k)) : writeAll rows l = writeAll rows r := by
  apply Option.ext
  intro after
  show writeAll rows l = some after ↔ writeAll rows r = some after
  rw [writeAll_eq_some_iff, writeAll_eq_some_iff]
  apply forall_congr'
  intro k
  rw [h]

/-- Cut into batches, the writes do what they do one at a time. -/
theorem writeAll_chunkByPartition (rows : Rows) (table : String) (actions : List BatchAction) (size : Nat) :
    writeAll rows ((chunkByPartition table actions size).flatMap (·.actions)) = writeAll rows actions := by
  rw [flatMap_chunkByPartition]
  apply writeAll_congr
  intro k
  apply filter_flatMap_classify k.partition
  intro a ha
  rw [BatchAction.partition, of_decide_eq_true ha]

/-! ## batches -/

theorem applyAction_toOption (table : String) (rows : Rows) (a : BatchAction) :
    (MemoryStore.applyAction table rows a).toOption = write rows a.kind a.entity := by
  obtain ⟨kind, e⟩ := a
  cases kind <;> rcases h : rows.get? e.key with _ | row <;>
    simp only [MemoryStore.applyAction, BatchAction.resolve, write, ActionKind.rule, h] <;> rfl

/-- A batch does what its writes do one at a time, and is refused if one of them is. -/
theorem applyActions_toOption (table : String) (index : Nat) (rows : Rows) (actions : List BatchAction) :
    (applyActions (MemoryStore.applyAction table) index rows actions).toOption = writeAll rows actions := by
  induction actions generalizing index rows with
  | nil => rfl
  | cons a r ih =>
    rw [writeAll_cons, ← applyAction_toOption table, applyActions]
    rcases MemoryStore.applyAction table rows a with e | rows'
    · rfl
    · exact ih (index + 1) rows'

/-! ## refusals -/

/-- Where writes stop: those before are done and lead to `mid`, where `a` is refused. -/
structure StopsAt (rows : Rows) (actions before : List BatchAction) (a : BatchAction) (mid : Rows) : Prop where
  cut : ∃ after, actions = before ++ a :: after
  done : writeAll rows before = some mid
  refused : write mid a.kind a.entity = none

theorem stopsAt_cons {rows mid : Rows} {b a : BatchAction} {r before : List BatchAction} :
    StopsAt rows (b :: r) before a mid ↔
      (before = [] ∧ a = b ∧ mid = rows ∧ write rows b.kind b.entity = none) ∨
        ∃ after before', write rows b.kind b.entity = some after ∧ before = b :: before' ∧
          StopsAt after r before' a mid := by
  constructor
  · rintro ⟨⟨rest, hcut⟩, hdone, hrefused⟩
    cases before with
    | nil =>
      cases hcut
      cases hdone
      exact Or.inl ⟨rfl, rfl, rfl, hrefused⟩
    | cons b' before =>
      obtain ⟨rfl, hrest⟩ := List.cons.inj hcut
      rw [writeAll_cons] at hdone
      obtain ⟨after, hw, hdone⟩ := Option.bind_eq_some_iff.mp hdone
      exact Or.inr ⟨after, before, hw, rfl, ⟨rest, hrest⟩, hdone, hrefused⟩
  · rintro (⟨rfl, rfl, rfl, hrefused⟩ | ⟨after, before', hw, rfl, ⟨rest, rfl⟩, hdone, hrefused⟩)
    · exact ⟨⟨r, rfl⟩, rfl, hrefused⟩
    · refine ⟨⟨rest, rfl⟩, ?_, hrefused⟩
      rw [writeAll_cons, hw]
      exact hdone

theorem not_stopsAt_nil {rows mid : Rows} {before : List BatchAction} {a : BatchAction} :
    ¬ StopsAt rows [] before a mid := by
  rintro ⟨⟨rest, hcut⟩, -, -⟩
  cases before <;> cases hcut

theorem exists_stopsAt {rows : Rows} {actions : List BatchAction} (h : writeAll rows actions = none) :
    ∃ before a mid, StopsAt rows actions before a mid := by
  induction actions generalizing rows with
  | nil => cases h
  | cons b r ih =>
    rw [writeAll_cons] at h
    rcases hw : write rows b.kind b.entity with _ | after
    · exact ⟨[], b, rows, stopsAt_cons.mpr (Or.inl ⟨rfl, rfl, rfl, hw⟩)⟩
    · rw [hw, Option.bind_some] at h
      obtain ⟨before, a, mid, hstop⟩ := ih h
      exact ⟨b :: before, a, mid, stopsAt_cons.mpr (Or.inr ⟨after, before, hw, rfl, hstop⟩)⟩

theorem StopsAt.writeAll_eq_none {rows mid : Rows} {actions before : List BatchAction} {a : BatchAction}
    (h : StopsAt rows actions before a mid) : writeAll rows actions = none := by
  obtain ⟨⟨rest, rfl⟩, hdone, hrefused⟩ := h
  rw [writeAll_append, hdone, Option.bind_some, writeAll_cons, hrefused]
  rfl

theorem StopsAt.unique {rows mid mid' : Rows} {actions before before' : List BatchAction} {a a' : BatchAction}
    (h : StopsAt rows actions before a mid) (h' : StopsAt rows actions before' a' mid') :
    before = before' ∧ a = a' ∧ mid = mid' := by
  induction actions generalizing rows before before' with
  | nil => exact absurd h not_stopsAt_nil
  | cons b r ih =>
    rcases stopsAt_cons.mp h with ⟨rfl, rfl, rfl, hw⟩ | ⟨after, before₁, hw, rfl, hstop⟩ <;>
      rcases stopsAt_cons.mp h' with ⟨rfl, rfl, rfl, hw'⟩ | ⟨after', before₂, hw', rfl, hstop'⟩
    · exact ⟨rfl, rfl, rfl⟩
    · rw [hw] at hw'; cases hw'
    · rw [hw] at hw'; cases hw'
    · cases hw.symm.trans hw'
      obtain ⟨rfl, ha, hmid⟩ := ih hstop hstop'
      exact ⟨rfl, ha, hmid⟩

/-- What follows writes that are done stops where all of them stop. -/
theorem StopsAt.append {rows mid mid' : Rows} {l actions before : List BatchAction} {a : BatchAction}
    (hl : writeAll rows l = some mid) (h : StopsAt mid actions before a mid') (more : List BatchAction) :
    StopsAt rows (l ++ (actions ++ more)) (l ++ before) a mid' := by
  obtain ⟨⟨rest, rfl⟩, hdone, hrefused⟩ := h
  refine ⟨⟨rest ++ more, by simp⟩, ?_, hrefused⟩
  rw [writeAll_append, hl]
  exact hdone

end Rows

/-- What the refusal of an action says: an insertion is refused because its row is there, any other action because
    its row is not. -/
def BatchAction.refusal (table : String) (a : BatchAction) : StoreError :=
  match a.kind with
  | .add => .conflict table a.entity.key
  | .updateMerge | .updateReplace | .upsertMerge | .upsertReplace | .delete => .entityNotFound table a.entity.key

theorem BatchAction.root_refusal (table : String) (a : BatchAction) : (a.refusal table).root = a.refusal table := by
  obtain ⟨kind, e⟩ := a
  cases kind <;> rfl

theorem BatchAction.refusal_cases (table : String) (a : BatchAction) :
    a.refusal table = .conflict table a.entity.key ∨ a.refusal table = .entityNotFound table a.entity.key := by
  obtain ⟨kind, e⟩ := a
  cases kind with
  | add => exact Or.inl rfl
  | updateMerge | updateReplace | upsertMerge | upsertReplace | delete => exact Or.inr rfl

namespace Rows

theorem applyAction_of_none {table : String} {rows : Rows} {a : BatchAction} (h : write rows a.kind a.entity = none) :
    MemoryStore.applyAction table rows a = .error (a.refusal table) := by
  obtain ⟨kind, e⟩ := a
  rw [write, Option.map_eq_none_iff] at h
  cases kind <;> rcases hr : rows.get? e.key with _ | row <;> rw [hr] at h <;>
    simp only [ActionKind.rule, reduceCtorEq] at h <;>
    simp only [MemoryStore.applyAction, BatchAction.resolve, hr, BatchAction.refusal]

/-- A batch is refused where its writes stop, with the place of the action and with what its row has against it. -/
theorem applyActions_eq_error_iff {table : String} {index : Nat} {rows : Rows} {actions : List BatchAction}
    {e : StoreError} :
    applyActions (MemoryStore.applyAction table) index rows actions = .error e ↔
      ∃ before a mid, StopsAt rows actions before a mid ∧
        e = .batchRejected (index + before.length) (a.refusal table) := by
  induction actions generalizing index rows with
  | nil =>
    constructor
    · intro h; cases h
    · rintro ⟨before, a, mid, hstop, -⟩
      exact absurd hstop not_stopsAt_nil
  | cons b r ih =>
    have hone := applyAction_toOption table rows b
    rcases hw : write rows b.kind b.entity with _ | after
    · rw [applyActions, applyAction_of_none hw]
      constructor
      · intro h
        cases h
        exact ⟨[], b, rows, stopsAt_cons.mpr (Or.inl ⟨rfl, rfl, rfl, hw⟩), rfl⟩
      · rintro ⟨before, a, mid, hstop, rfl⟩
        obtain ⟨rfl, rfl, -⟩ := hstop.unique (stopsAt_cons.mpr (Or.inl ⟨rfl, rfl, rfl, hw⟩))
        rfl
    · rw [hw] at hone
      rcases ha : MemoryStore.applyAction table rows b with e' | after'
      · rw [ha] at hone; cases hone
      · rw [ha] at hone
        cases hone
        simp only [applyActions, ha, ih]
        constructor
        · rintro ⟨before, a, mid, hstop, rfl⟩
          refine ⟨b :: before, a, mid, stopsAt_cons.mpr (Or.inr ⟨after, before, hw, rfl, hstop⟩), ?_⟩
          rw [List.length_cons]
          congr 1; omega
        · rintro ⟨before, a, mid, hstop, rfl⟩
          rcases stopsAt_cons.mp hstop with ⟨-, -, -, hw'⟩ | ⟨after', before', hw', rfl, hstop'⟩
          · rw [hw] at hw'; cases hw'
          · cases hw.symm.trans hw'
            refine ⟨before', a, mid, hstop', ?_⟩
            rw [List.length_cons]
            congr 1; omega

/-! ## batches of one partition -/

/-- A batch that stays within the keys that `others` has not does there what it does to all rows. -/
theorem applyActions_insertAll (table : String) (index : Nat) (others staged : Rows) {actions : List BatchAction}
    (h : ∀ a ∈ actions, others.get? a.entity.key = none) :
    applyActions (MemoryStore.applyAction table) index (others.insertAll staged) actions =
      (applyActions (MemoryStore.applyAction table) index staged actions).map others.insertAll := by
  induction actions generalizing index staged with
  | nil => rfl
  | cons a r ih =>
    obtain ⟨ha, hr⟩ := List.forall_mem_cons.mp h
    have hget : (others.insertAll staged).get? a.entity.key = staged.get? a.entity.key := by
      rw [SortedMap.get?_insertAll, ha, Option.or_none]
    simp only [applyActions, MemoryStore.applyAction, hget]
    rcases a.resolve table (staged.get? a.entity.key) with e | ⟨e | -⟩
    · rfl
    · simp only [← SortedMap.insertAll_insert]
      exact ih (index + 1) _ hr
    · simp only [← SortedMap.insertAll_erase _ _ ha]
      exact ih (index + 1) _ hr

/-- The writes of a partition on all rows, told for the partition and for the rest. -/
theorem writeAll_partition {rows written : Rows} {p : String} {actions : List BatchAction}
    (hp : ∀ a ∈ actions, a.partition = p) (hw : writeAll rows actions = some written) :
    writeAll (rows.filterKeys (·.partition == p)) actions = some (written.filterKeys (·.partition == p)) ∧
      ∀ k, k.partition ≠ p → written.get? k = rows.get? k := by
  have hkeys := writeAll_eq_some_iff.mp hw
  have hnone : ∀ k : RowKey, k.partition ≠ p → actions.filter (·.entity.key = k) = [] := by
    intro k hk
    rw [List.filter_eq_nil_iff]
    intro a ha he
    have hkey : a.entity.key = k := of_decide_eq_true he
    exact hk (hkey ▸ hp a ha)
  constructor
  · refine writeAll_eq_some_iff.mpr fun k => ?_
    rw [SortedMap.get?_filterKeys, SortedMap.get?_filterKeys]
    by_cases hk : k.partition = p
    · rw [if_pos (by simpa using hk), if_pos (by simpa using hk)]
      exact hkeys k
    · rw [if_neg (by simpa using hk), if_neg (by simpa using hk), hnone k hk]
      rfl
  · intro k hk
    have := hkeys k
    rw [hnone k hk, List.foldlM_nil] at this
    exact (Option.some.inj this).symm

/-- The keys that do not come before a partition's least one are those of partitions that do not come before it. -/
theorem compare_leastKey (p : String) (k : RowKey) : compare (⟨p, ""⟩ : RowKey) k ≠ .gt ↔ p ≤ k.partition := by
  have hcompare : compare (⟨p, ""⟩ : RowKey) k = (compare p k.partition).then (compare "" k.row) := rfl
  have hrow : compare "" k.row ≠ .gt :=
    compare_le_iff_le.mpr (not_lt.mp fun hlt => List.not_lt_nil _ (String.lt_iff_toList_lt.mp hlt))
  rw [hcompare, ← compare_le_iff_le]
  rcases compare p k.partition <;> simp [hrow]

theorem compare_partition {j k : RowKey} (h : compare j k = .lt) : j.partition ≤ k.partition := by
  have hcompare : compare j k = (compare j.partition k.partition).then (compare j.row k.row) := rfl
  rw [hcompare, Ordering.then_eq_lt] at h
  rw [← compare_le_iff_le]
  rcases h with h | ⟨h, -⟩ <;> simp [h]

/-- What is staged is the partition. From its least key on no row of it comes after one of another partition. -/
theorem stage_eq (rows : Rows) (p : String) : MemoryStore.stage rows p = rows.filterKeys (·.partition == p) := by
  have hfirst : (rows.startingAt ⟨p, ""⟩).Pairwise fun a b =>
      (b.1.partition == p) = true → (a.1.partition == p) = true := by
    refine List.Pairwise.imp_of_mem ?_ (rows.sorted.filter _)
    intro a b ha _ hab hb
    have hlow : p ≤ a.1.partition := by
      rw [← compare_leastKey]
      simpa using (List.mem_filter.mp ha).2
    rw [beq_iff_eq] at hb ⊢
    exact le_antisymm (hb ▸ compare_partition hab) hlow
  have hwithin : (rows.startingAt ⟨p, ""⟩).filter (·.1.partition == p) = (rows.filterKeys (·.partition == p)).entries := by
    rw [SortedMap.startingAt, List.filter_filter]
    refine List.filter_congr fun e _ => ?_
    by_cases he : e.1.partition = p
    · have hfrom : compare (⟨p, ""⟩ : RowKey) e.1 ≠ .gt := (compare_leastKey p e.1).mpr he.ge
      simp [he, hfrom]
    · simp [he]
  rw [MemoryStore.stage, takeWhile_eq_filter hfirst, hwithin, SortedMap.ofList_entries]

/-- A batch of one partition works on the rows of that partition alone. -/
theorem applyActions_staged (table : String) (index : Nat) (rows : Rows) {p : String} {actions : List BatchAction}
    (h : ∀ a ∈ actions, a.partition = p) :
    applyActions (MemoryStore.applyAction table) index rows actions =
      (applyActions (MemoryStore.applyAction table) index (rows.filterKeys (·.partition == p)) actions).map
        (rows.filterKeys (·.partition != p)).insertAll := by
  rw [← applyActions_insertAll]
  · have hwhole : (rows.filterKeys (·.partition != p)).insertAll (rows.filterKeys (·.partition == p)) = rows :=
      SortedMap.insertAll_filterKeys (fun _ => rfl) rows
    rw [hwhole]
  · intro a ha
    have hp : a.entity.key.partition = p := h a ha
    rw [SortedMap.get?_filterKeys, if_neg (by simp [hp])]

/-- A deletion names its row only by its key, so it does not matter which properties came with it. -/
theorem write_ofRow (rows : Rows) (kind : ActionKind) (e : Entity) :
    write rows (BatchAction.ofRow kind e).kind (BatchAction.ofRow kind e).entity = write rows kind e := by
  cases kind with
  | delete =>
    show (ActionKind.delete.rule (.bare e.key) (rows.get? e.key)).map _ =
      (ActionKind.delete.rule e (rows.get? e.key)).map _
    cases rows.get? e.key <;> rfl
  | _ => rfl

/-! ## rows under their own keys -/

/-- Every row holds the key under which it is filed. -/
def WellFiled (rows : Rows) : Prop := ∀ k row, rows.get? k = some row → row.key = k

theorem wellFiled_empty : WellFiled SortedMap.empty := by
  intro k row h
  cases h

theorem WellFiled.write {rows after : Rows} (h : WellFiled rows) {kind : ActionKind} {e : Entity}
    (hw : Rows.write rows kind e = some after) : WellFiled after := by
  obtain ⟨row, hr, rfl⟩ := Option.map_eq_some_iff.mp hw
  intro k row' hk
  rw [get?_file] at hk
  by_cases he : k = e.key
  · rw [if_pos he] at hk
    subst hk he
    -- what a rule files is the entity itself, or the row that was there with the entity's properties over its own
    rcases hx : rows.get? e.key with _ | old
    · rw [hx] at hr
      cases kind <;> cases hr <;> rfl
    · have hold := h _ _ hx
      rw [hx] at hr
      cases kind <;> cases hr <;> first | rfl | exact hold
  · rw [if_neg he] at hk
    exact h k row' hk

theorem WellFiled.writeAll {rows after : Rows} (h : WellFiled rows) {actions : List BatchAction}
    (hw : Rows.writeAll rows actions = some after) : WellFiled after := by
  induction actions generalizing rows with
  | nil => cases hw; exact h
  | cons a r ih =>
    rw [writeAll_cons] at hw
    obtain ⟨mid, hm, hr⟩ := Option.bind_eq_some_iff.mp hw
    exact ih (h.write hm) hr

theorem size_write {rows after : Rows} {kind : ActionKind} {e : Entity} (hw : write rows kind e = some after) :
    after.size ≤ rows.size + 1 := by
  obtain ⟨row, -, rfl⟩ := Option.map_eq_some_iff.mp hw
  cases row with
  | none =>
    have : (file rows e.key none).size ≤ rows.size := rows.size_erase_le e.key
    omega
  | some row => exact rows.size_insert_le e.key row

theorem size_writeAll {rows after : Rows} {actions : List BatchAction} (hw : writeAll rows actions = some after) :
    after.size ≤ rows.size + actions.length := by
  induction actions generalizing rows with
  | nil => cases hw; simp
  | cons a r ih =>
    rw [writeAll_cons] at hw
    obtain ⟨mid, hm, hr⟩ := Option.bind_eq_some_iff.mp hw
    have := ih hr
    have := size_write hm
    simp only [List.length_cons]; omega

/-! ## patches -/

theorem eq_of_apply {patch : Patch} {row row' : Entity} (h : patch.apply row = some row') :
    row' = { row with properties := row.properties.insertAll patch.properties } := by
  unfold Patch.apply at h
  split at h
  · cases h
  · cases h; rfl

def patchRow (patch : Patch) (row : Entity) : Entity := (patch.apply row).getD row

def patchAll (patch : Patch) (rows : Rows) : Rows := rows.mapValues fun _ => patchRow patch

@[simp] theorem patchRow_key (patch : Patch) (row : Entity) : (patchRow patch row).key = row.key := by
  unfold patchRow Patch.apply
  split <;> rfl

/-- Merging a patched row into the row it comes from gives the patched row. -/
theorem merge_patched {patch : Patch} {row row' : Entity} (h : patch.apply row = some row') :
    row.merge row' = row' := by
  rw [eq_of_apply h]
  exact row.merge_merge ⟨row.key, patch.properties⟩

theorem WellFiled.patchAll {rows : Rows} (h : WellFiled rows) (patch : Patch) : WellFiled (patchAll patch rows) := by
  intro k row hk
  rw [Rows.patchAll, SortedMap.get?_mapValues, Option.map_eq_some_iff] at hk
  obtain ⟨old, ho, rfl⟩ := hk
  rw [patchRow_key]
  exact h k old ho

theorem WellFiled.key_of_mem {rows : Rows} (h : WellFiled rows) {x : RowKey × Entity} (hx : x ∈ rows.entries) :
    x.2.key = x.1 :=
  h x.1 x.2 (SortedMap.get?_eq_some_iff.mpr hx)

/-- The writes that patch a stretch of a table's rows patch these rows where they are, and no others. -/
theorem writeAll_patches (patch : Patch) {rows : Rows} {l m r : List (RowKey × Entity)}
    (he : rows.entries = l ++ (m ++ r)) (hk : ∀ x ∈ m, x.2.key = x.1) :
    ∃ after, writeAll rows (Execution.patches patch (m.map (·.2))) = some after ∧
      after.entries = l ++ (m.map (fun x => (x.1, patchRow patch x.2)) ++ r) := by
  induction m generalizing rows l with
  | nil => exact ⟨rows, rfl, he⟩
  | cons x m ih =>
    obtain ⟨k, row⟩ := x
    have hkey : row.key = k := hk (k, row) List.mem_cons_self
    have hkm : ∀ x ∈ m, x.2.key = x.1 := by
      intro x hx
      exact hk x (List.mem_cons_of_mem _ hx)
    rw [List.cons_append] at he
    rcases hp : patch.apply row with _ | row'
    · -- the row stays as it is, and no write is sent
      have hsame : patchRow patch row = row := by rw [patchRow, hp]; rfl
      have hcut : rows.entries = (l ++ [(k, row)]) ++ (m ++ r) := by rw [he]; simp
      obtain ⟨after, hw, ha⟩ := ih hcut hkm
      refine ⟨after, ?_, by rw [ha]; simp [hsame]⟩
      rw [← hw]
      simp [Execution.patches, hp]
    · have hnew : patchRow patch row = row' := by rw [patchRow, hp]; rfl
      have hkey' : row'.key = k := by rw [← hnew, patchRow_key, hkey]
      have hwrite : write rows .updateMerge row' = some (rows.insert k row') := by
        rw [write, hkey', SortedMap.get?_cut he]
        show some (rows.insert k (row.merge row')) = _
        rw [merge_patched hp]
      have hcut : (rows.insert k row').entries = (l ++ [(k, row')]) ++ (m ++ r) := by
        rw [SortedMap.insert_cut he]; simp
      obtain ⟨after, hw, ha⟩ := ih hcut hkm
      refine ⟨after, ?_, by rw [ha]; simp [hnew]⟩
      rw [← hw]
      simp only [Execution.patches, List.map_cons, List.filterMap_cons, hp]
      show writeAll rows (_ :: _) = _
      rw [writeAll_cons]
      show (write rows .updateMerge row').bind _ = _
      rw [hwrite]; rfl

end Rows

end TableMigrations
