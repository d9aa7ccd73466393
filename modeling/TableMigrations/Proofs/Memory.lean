/-
  TableMigrations.Proofs.Memory — what calls do to a memory store, table by table.

  A call leaves the store as it was, takes its own table away, or gives that table other rows (`perform_cases`). What
  holds of every state that calls lead to follows: other tables stay as they are (`perform_frame`), rows are filed
  under their own keys (`wellFiled_of_reachable`), and rows come only from the writes of a batch (`rowTotal_perform`).
-/
import TableMigrations.Proofs.RowWrites

namespace TableMigrations

inductive ReachableFrom {σ : Type} [TableStore σ] (s : σ) : σ → Prop
  | refl : ReachableFrom s s
  | call {t : σ} (h : ReachableFrom s t) (c : Call) : ReachableFrom s (TableStore.perform t c).2

namespace Call

def table : Call → String
  | .ensureTable t | .deleteTable t | .getEntity t _ | .submitBatch t _ _ | .queryPage t _ _ => t

def writes : Call → Nat
  | .submitBatch _ _ actions => actions.length
  | .ensureTable _ | .deleteTable _ | .getEntity .. | .queryPage .. => 0

end Call

/-! ## what is asked of a batch -/

theorem checkBatch_eq_ok_iff {p : String} {actions : List BatchAction} :
    checkBatch p actions = .ok () ↔ actions.length ≤ maxBatchActions ∧ ∀ a ∈ actions, a.partition = p := by
  unfold checkBatch
  split
  · rename_i h
    constructor
    · intro he; cases he
    · intro he
      have := he.1
      omega
  · rename_i h
    split
    · rename_i stray hs
      have hne : stray.partition ≠ p := by simpa using List.find?_some hs
      constructor
      · intro he; cases he
      · intro he
        exact absurd (he.2 stray (List.mem_of_find?_eq_some hs)) hne
    · rename_i hs
      constructor
      · intro _
        refine ⟨by omega, ?_⟩
        intro a ha
        simpa using List.find?_eq_none.mp hs a ha
      · intro _; rfl

namespace MemoryStore

def rowsOf (s : MemoryStore) (table : String) : Rows := (s.tables.get? table).getD .empty

def withRows (s : MemoryStore) (table : String) (rows : Rows) : MemoryStore := ⟨s.tables.insert table rows⟩

def WellFiled (s : MemoryStore) : Prop := ∀ table, Rows.WellFiled (s.rowsOf table)

theorem ext_tables {s t : MemoryStore} (h : ∀ u, s.tables.get? u = t.tables.get? u) : s = t :=
  congrArg MemoryStore.mk (SortedMap.ext_get? h)

section

variable (s : MemoryStore)

theorem get?_withRows (t u : String) (rows : Rows) :
    (s.withRows t rows).tables.get? u = if u = t then some rows else s.tables.get? u :=
  SortedMap.get?_insert s.tables t u rows

theorem get?_withRows_self (t : String) (rows : Rows) : (s.withRows t rows).tables.get? t = some rows :=
  s.tables.get?_insert_self t rows

theorem rowsOf_withRows (t u : String) (rows : Rows) :
    (s.withRows t rows).rowsOf u = if u = t then rows else s.rowsOf u := by
  unfold rowsOf
  rw [get?_withRows]
  split <;> rfl

theorem withRows_withRows (t : String) (rows after : Rows) :
    (s.withRows t rows).withRows t after = s.withRows t after :=
  congrArg MemoryStore.mk (s.tables.insert_insert t rows after)

theorem withRows_over (t : String) (rows : Rows) : (s.withRows t rows).withRows t = s.withRows t :=
  funext (s.withRows_withRows t rows)

variable {s}

theorem rowsOf_eq {t : String} {rows : Rows} (h : s.tables.get? t = some rows) : s.rowsOf t = rows := by
  rw [rowsOf, h]; rfl

theorem withRows_self {t : String} {rows : Rows} (h : s.tables.get? t = some rows) : s.withRows t rows = s := by
  apply ext_tables
  intro u
  rw [get?_withRows]
  by_cases hu : u = t
  · rw [if_pos hu, hu, h]
  · rw [if_neg hu]

variable (s)

/-! ## calls -/

theorem ensureTable_eq (t : String) : s.ensureTable t = s.withRows t (s.rowsOf t) := by
  rcases h : s.tables.get? t with _ | rows
  · simp [ensureTable, withRows, rowsOf, h]
  · rw [rowsOf_eq h, withRows_self h]
    simp [ensureTable, h]

/-- A table that is deleted and made anew is there and empty. -/
theorem ensureTable_deleteTable (t : String) : (s.deleteTable t).ensureTable t = s.withRows t .empty := by
  rw [ensureTable_eq]
  apply ext_tables
  intro u
  rw [get?_withRows, get?_withRows]
  by_cases hu : u = t
  · rw [if_pos hu, if_pos hu, rowsOf]
    show some (((s.tables.erase t).get? t).getD .empty) = _
    rw [SortedMap.get?_erase_self]; rfl
  · rw [if_neg hu, if_neg hu]
    exact s.tables.get?_erase_ne hu

/-- A batch on a copy of its partition is the batch on the table. -/
theorem submitBatch_eq (t p : String) (actions : List BatchAction) :
    s.submitBatch t p actions = match checkBatch p actions with
      | .error e => (.error e, s)
      | .ok () =>
        match s.tables.get? t with
        | none => (.error (.tableNotFound t), s)
        | some rows =>
          match applyActions (applyAction t) 0 rows actions with
          | .error e => (.error e, s)
          | .ok after => (.ok (), s.withRows t after) := by
  rcases hc : checkBatch p actions with e | ⟨⟩
  · simp only [submitBatch, hc]
  · rcases ht : s.tables.get? t with _ | rows
    · simp only [submitBatch, hc, ht]
    · simp only [submitBatch, hc, ht, Rows.stage_eq]
      rw [Rows.applyActions_staged t 0 rows (checkBatch_eq_ok_iff.mp hc).2]
      cases applyActions (applyAction t) 0 (rows.filterKeys (·.partition == p)) actions <;> rfl

variable {s}

theorem submitBatch_of_some {t p : String} {actions : List BatchAction} {rows after : Rows}
    (hc : checkBatch p actions = .ok ()) (ht : s.tables.get? t = some rows)
    (hw : Rows.writeAll rows actions = some after) :
    s.submitBatch t p actions = (.ok (), s.withRows t after) := by
  rw [← Rows.applyActions_toOption t 0] at hw
  simp only [submitBatch_eq, hc, ht]
  rcases ha : applyActions (applyAction t) 0 rows actions with e | rows'
  · rw [ha] at hw; cases hw
  · rw [ha] at hw; cases hw; rfl

theorem submitBatch_of_none {t p : String} {actions : List BatchAction} {rows : Rows}
    (hc : checkBatch p actions = .ok ()) (ht : s.tables.get? t = some rows) (hw : Rows.writeAll rows actions = none) :
    ∃ e, s.submitBatch t p actions = (.error e, s) := by
  rw [← Rows.applyActions_toOption t 0] at hw
  simp only [submitBatch_eq, hc, ht]
  rcases ha : applyActions (applyAction t) 0 rows actions with e | rows'
  · exact ⟨e, rfl⟩
  · rw [ha] at hw; cases hw

/-- A batch whose writes stop is refused for the one at which they stop. -/
theorem submitBatch_of_stopsAt {t p : String} {actions before : List BatchAction} {a : BatchAction} {rows mid : Rows}
    (hc : checkBatch p actions = .ok ()) (ht : s.tables.get? t = some rows)
    (hstop : Rows.StopsAt rows actions before a mid) :
    s.submitBatch t p actions = (.error (.batchRejected before.length (a.refusal t)), s) := by
  have happly : applyActions (applyAction t) 0 rows actions = .error (.batchRejected before.length (a.refusal t)) :=
    Rows.applyActions_eq_error_iff.mpr ⟨before, a, mid, hstop, by rw [Nat.zero_add]⟩
  simp only [submitBatch_eq, hc, ht, happly]

/-- A batch is refused and changes nothing, or does all its writes. -/
theorem submitBatch_cases (s : MemoryStore) (t p : String) (actions : List BatchAction) :
    (∃ e, s.submitBatch t p actions = (.error e, s)) ∨
      ∃ rows after, s.tables.get? t = some rows ∧ Rows.writeAll rows actions = some after ∧
        s.submitBatch t p actions = (.ok (), s.withRows t after) := by
  rcases hc : checkBatch p actions with e | ⟨⟩
  · exact Or.inl ⟨e, by simp only [submitBatch, hc]⟩
  · rcases ht : s.tables.get? t with _ | rows
    · exact Or.inl ⟨.tableNotFound t, by simp only [submitBatch, hc, ht]⟩
    · rcases hw : Rows.writeAll rows actions with _ | after
      · exact Or.inl (submitBatch_of_none hc ht hw)
      · exact Or.inr ⟨rows, after, rfl, hw, submitBatch_of_some hc ht hw⟩

/-- The store after a call: as it was, without the call's table, or with other rows in it. -/
theorem perform_cases (s : MemoryStore) (c : Call) :
    (TableStore.perform s c).2 = s ∨
      (c = .deleteTable c.table ∧ (TableStore.perform s c).2 = s.deleteTable c.table) ∨
      ∃ after, (TableStore.perform s c).2 = s.withRows c.table after ∧
        (Rows.WellFiled (s.rowsOf c.table) → Rows.WellFiled after) ∧
        after.size ≤ (s.rowsOf c.table).size + c.writes := by
  cases c with
  | ensureTable t =>
    refine Or.inr (Or.inr ⟨s.rowsOf t, s.ensureTable_eq t, ?_, ?_⟩)
    · intro h; exact h
    · simp [Call.table]
  | deleteTable t => exact Or.inr (Or.inl ⟨rfl, rfl⟩)
  | getEntity t k => exact Or.inl rfl
  | queryPage t n after => exact Or.inl rfl
  | submitBatch t p actions =>
    rcases submitBatch_cases s t p actions with ⟨e, he⟩ | ⟨rows, after, ht, hw, hs⟩
    · exact Or.inl (congrArg Prod.snd he)
    · refine Or.inr (Or.inr ⟨after, congrArg Prod.snd hs, ?_, ?_⟩)
      · rw [Call.table, rowsOf_eq ht]
        intro h
        exact h.writeAll hw
      · rw [Call.table, rowsOf_eq ht]; exact Rows.size_writeAll hw

/-- A call is about one table, and the others stay as they are. -/
theorem perform_frame (s : MemoryStore) (c : Call) {u : String} (h : u ≠ c.table) :
    (TableStore.perform s c).2.tables.get? u = s.tables.get? u := by
  rcases perform_cases s c with he | ⟨-, he⟩ | ⟨after, he, -⟩
  · rw [he]
  · rw [he]; exact s.tables.get?_erase_ne h
  · rw [he, get?_withRows, if_neg h]

/-! ## what every state has -/

theorem wellFiled_empty : empty.WellFiled := by
  intro table
  exact Rows.wellFiled_empty

theorem WellFiled.rows {t : String} {rows : Rows} (h : s.WellFiled) (ht : s.tables.get? t = some rows) :
    Rows.WellFiled rows := by
  rw [← rowsOf_eq ht]
  exact h t

theorem WellFiled.withRows {t : String} {rows : Rows} (h : s.WellFiled) (hr : Rows.WellFiled rows) :
    (s.withRows t rows).WellFiled := by
  intro u
  rw [rowsOf_withRows]
  by_cases hu : u = t
  · rw [if_pos hu]; exact hr
  · rw [if_neg hu]; exact h u

theorem WellFiled.deleteTable (h : s.WellFiled) (t : String) : (s.deleteTable t).WellFiled := by
  intro u
  by_cases hu : u = t
  · subst hu
    rw [rowsOf]
    show Rows.WellFiled (((s.tables.erase u).get? u).getD .empty)
    rw [SortedMap.get?_erase_self]; exact Rows.wellFiled_empty
  · have hsame : (s.deleteTable t).rowsOf u = s.rowsOf u := by
      unfold rowsOf
      rw [show (s.deleteTable t).tables.get? u = _ from s.tables.get?_erase_ne hu]
    rw [hsame]; exact h u

theorem WellFiled.perform (h : s.WellFiled) (c : Call) : (TableStore.perform s c).2.WellFiled := by
  rcases perform_cases s c with he | ⟨-, he⟩ | ⟨after, he, hw, -⟩
  · rw [he]; exact h
  · rw [he]; exact h.deleteTable _
  · rw [he]; exact h.withRows (hw (h _))

theorem wellFiled_of_reachable (h : ReachableFrom empty s) : s.WellFiled := by
  induction h with
  | refl => exact wellFiled_empty
  | call _ c ih => exact ih.perform c

/-! ## how many rows there are -/

theorem rowTotal_eq (s : MemoryStore) : TableStore.rowTotal s = (s.tables.values.map SortedMap.size).sum := by
  rw [List.sum_eq_foldr, List.foldr_map]; rfl

theorem rowTotal_withRows (s : MemoryStore) (t : String) (rows : Rows) :
    TableStore.rowTotal (s.withRows t rows) + (s.rowsOf t).size = TableStore.rowTotal s + rows.size := by
  have := SortedMap.sum_insert s.tables t rows SortedMap.size
  have hsize : (s.rowsOf t).size = ((s.tables.get? t).map SortedMap.size).getD 0 := by
    rw [rowsOf]; cases s.tables.get? t <;> rfl
  rw [hsize, rowTotal_eq, rowTotal_eq]; exact this

theorem size_rowsOf_le (s : MemoryStore) (t : String) : (s.rowsOf t).size ≤ TableStore.rowTotal s := by
  have := s.rowTotal_withRows t .empty
  have he : (SortedMap.empty : Rows).size = 0 := rfl
  omega

theorem rowTotal_perform (s : MemoryStore) (c : Call) :
    TableStore.rowTotal (TableStore.perform s c).2 ≤ TableStore.rowTotal s + c.writes := by
  rcases perform_cases s c with he | ⟨-, he⟩ | ⟨after, he, -, hs⟩
  · rw [he]; omega
  · have : TableStore.rowTotal (s.deleteTable c.table) ≤ TableStore.rowTotal s := by
      rw [rowTotal_eq, rowTotal_eq]; exact SortedMap.sum_erase_le s.tables c.table SortedMap.size
    rw [he]; omega
  · have := s.rowTotal_withRows c.table after
    rw [he]; omega

end

end MemoryStore

end TableMigrations
