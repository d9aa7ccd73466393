/-
  TableMigrations.Proofs.Durable — two relations hold what a memory store holds, and answer as it does.

  `DurableStore.view` reads the relations as a memory store: a registered name is a table, with the rows that are filed
  under it. Every call answers as the memory store answers and leaves what it leaves (`answer_view`, `perform_view`).
  That rests on one invariant, that rows are filed under registered names only.
-/
import TableMigrations.Proofs.Memory
import TableMigrations.Store.Durable

namespace TableMigrations

open Std

/-! ## the rows of one table -/

theorem compare_rowAddress (t : String) (j k : RowKey) : compare (⟨t, j⟩ : RowAddress) ⟨t, k⟩ = compare j k := by
  show (compare t t).then (compare j k) = compare j k
  rw [ReflOrd.compare_self]; rfl

def rowsIn (rows : SortedMap RowAddress Properties) (table : String) : Rows where
  entries := (rows.entries.filter (·.1.table == table)).map fun e => (e.1.key, ⟨e.1.key, e.2⟩)
  sorted := by
    refine List.pairwise_map.mpr (List.Pairwise.imp_of_mem ?_ (rows.sorted.filter _))
    intro a b ha hb hab
    have hta : a.1.table = table := by simpa using (List.mem_filter.mp ha).2
    have htb : b.1.table = table := by simpa using (List.mem_filter.mp hb).2
    obtain ⟨⟨ta, ka⟩, pa⟩ := a
    obtain ⟨⟨tb, kb⟩, pb⟩ := b
    simp only at hta htb
    subst hta htb
    rw [← compare_rowAddress]; exact hab

theorem get?_rowsIn (rows : SortedMap RowAddress Properties) (table : String) (k : RowKey) :
    (rowsIn rows table).get? k = DurableStore.loadRow rows table k := by
  apply Option.ext
  intro e
  show (rowsIn rows table).get? k = some e ↔ (rows.get? ⟨table, k⟩).map (Entity.mk k) = some e
  rw [SortedMap.get?_eq_some_iff, Option.map_eq_some_iff]
  simp only [rowsIn, List.mem_map, List.mem_filter, Prod.mk.injEq, SortedMap.get?_eq_some_iff]
  constructor
  · rintro ⟨⟨⟨t, j⟩, p⟩, ⟨hm, ht⟩, rfl, rfl⟩
    obtain rfl : t = table := by simpa using ht
    exact ⟨p, hm, rfl⟩
  · rintro ⟨p, hm, rfl⟩
    exact ⟨(⟨table, k⟩, p), ⟨hm, by simp⟩, rfl, rfl⟩

theorem rowsIn_insert (rows : SortedMap RowAddress Properties) (table u : String) (k : RowKey) (p : Properties) :
    rowsIn (rows.insert ⟨table, k⟩ p) u =
      if u = table then (rowsIn rows table).insert k ⟨k, p⟩ else rowsIn rows u := by
  apply SortedMap.ext_get?
  intro j
  rw [get?_rowsIn, DurableStore.loadRow, SortedMap.get?_insert]
  by_cases hu : u = table
  · subst hu
    rw [if_pos rfl]
    by_cases hj : j = k
    · subst hj
      rw [if_pos rfl, SortedMap.get?_insert_self]; rfl
    · rw [if_neg (by simpa using hj), SortedMap.get?_insert_ne _ _ hj, get?_rowsIn, DurableStore.loadRow]
  · have hne : (⟨u, j⟩ : RowAddress) ≠ ⟨table, k⟩ := by simp [hu]
    rw [if_neg hne, if_neg hu, get?_rowsIn, DurableStore.loadRow]

theorem rowsIn_erase (rows : SortedMap RowAddress Properties) (table u : String) (k : RowKey) :
    rowsIn (rows.erase ⟨table, k⟩) u = if u = table then (rowsIn rows table).erase k else rowsIn rows u := by
  apply SortedMap.ext_get?
  intro j
  rw [get?_rowsIn, DurableStore.loadRow]
  by_cases hu : u = table
  · subst hu
    rw [if_pos rfl]
    by_cases hj : j = k
    · subst hj
      rw [SortedMap.get?_erase_self, SortedMap.get?_erase_self]; rfl
    · have hne : (⟨u, j⟩ : RowAddress) ≠ ⟨u, k⟩ := by simp [hj]
      rw [SortedMap.get?_erase_ne _ hne, SortedMap.get?_erase_ne _ hj, get?_rowsIn, DurableStore.loadRow]
  · have hne : (⟨u, j⟩ : RowAddress) ≠ ⟨table, k⟩ := by simp [hu]
    rw [SortedMap.get?_erase_ne _ hne, if_neg hu, get?_rowsIn, DurableStore.loadRow]

namespace DurableStore

/-! ## one action -/

/-- An action in the relation is the action on the rows of its table, and the rows of other tables stay. -/
theorem applyAction_view (table : String) (rows : SortedMap RowAddress Properties) (a : BatchAction) :
    (∃ e, applyAction table rows a = .error e ∧ MemoryStore.applyAction table (rowsIn rows table) a = .error e) ∨
      ∃ after, applyAction table rows a = .ok after ∧
        MemoryStore.applyAction table (rowsIn rows table) a = .ok (rowsIn after table) ∧
        ∀ u ≠ table, rowsIn after u = rowsIn rows u := by
  have hkey : ∀ e, a.resolve table (loadRow rows table a.entity.key) = .ok (.put e) → e.key = a.entity.key := by
    obtain ⟨kind, e⟩ := a
    intro e' he
    simp only [loadRow] at he
    -- a row that is put is the action's own or the one that was loaded under its key
    cases kind <;> rcases h : rows.get? ⟨table, e.key⟩ with _ | p <;> rw [h] at he <;> cases he <;> rfl
  simp only [applyAction, MemoryStore.applyAction, get?_rowsIn]
  rcases hr : a.resolve table (loadRow rows table a.entity.key) with e | ⟨e | -⟩
  · exact Or.inl ⟨e, rfl, rfl⟩
  · have := hkey e hr
    refine Or.inr ⟨_, rfl, ?_, ?_⟩
    · rw [rowsIn_insert, if_pos rfl, ← this]
    · intro u hu
      rw [rowsIn_insert, if_neg hu]
  · refine Or.inr ⟨_, rfl, ?_, ?_⟩
    · rw [rowsIn_erase, if_pos rfl]
    · intro u hu
      rw [rowsIn_erase, if_neg hu]

theorem applyActions_view (table : String) (index : Nat) (rows : SortedMap RowAddress Properties)
    (actions : List BatchAction) :
    (∃ e, applyActions (applyAction table) index rows actions = .error e ∧
        applyActions (MemoryStore.applyAction table) index (rowsIn rows table) actions = .error e) ∨
      ∃ after, applyActions (applyAction table) index rows actions = .ok after ∧
        applyActions (MemoryStore.applyAction table) index (rowsIn rows table) actions = .ok (rowsIn after table) ∧
        ∀ u ≠ table, rowsIn after u = rowsIn rows u := by
  induction actions generalizing index rows with
  | nil => exact Or.inr ⟨rows, rfl, rfl, fun _ _ => rfl⟩
  | cons a r ih =>
    simp only [applyActions]
    rcases applyAction_view table rows a with ⟨e, hd, hm⟩ | ⟨mid, hd, hm, hother⟩
    · rw [hd, hm]; exact Or.inl ⟨_, rfl, rfl⟩
    · rw [hd, hm]
      rcases ih (index + 1) mid with ⟨e, hd', hm'⟩ | ⟨after, hd', hm', hother'⟩
      · exact Or.inl ⟨e, hd', hm'⟩
      · refine Or.inr ⟨after, hd', hm', ?_⟩
        intro u hu
        rw [hother' u hu, hother u hu]

/-! ## the store -/

def view (s : DurableStore) : MemoryStore := ⟨s.registry.mapValues fun table _ => rowsIn s.rows table⟩

/-- Rows are filed under registered names only. -/
def Registered (s : DurableStore) : Prop := ∀ table, s.registry.get? table = none → rowsIn s.rows table = .empty

theorem get?_view (s : DurableStore) (table : String) :
    s.view.tables.get? table = (s.registry.get? table).map fun _ => rowsIn s.rows table :=
  s.registry.get?_mapValues _ table

theorem view_ensureTable {s : DurableStore} (h : s.Registered) (table : String) :
    (s.ensureTable table).view = s.view.ensureTable table := by
  apply MemoryStore.ext_tables
  intro u
  rw [s.view.ensureTable_eq, MemoryStore.get?_withRows, MemoryStore.rowsOf, get?_view, get?_view, get?_view]
  show ((s.registry.insert table ()).get? u).map _ = _
  rw [SortedMap.get?_insert]
  by_cases hu : u = table
  · subst hu
    rw [if_pos rfl, if_pos rfl]
    rcases hr : s.registry.get? u with _ | ⟨⟩
    · rw [Option.map_none, Option.getD_none, ← h u hr]; rfl
    · rfl
  · rw [if_neg hu, if_neg hu]; rfl

theorem rowsIn_deleteTable (s : DurableStore) (table u : String) :
    rowsIn (s.deleteTable table).rows u = if u = table then .empty else rowsIn s.rows u := by
  apply SortedMap.ext_get?
  intro k
  rw [get?_rowsIn, loadRow]
  show ((s.rows.filterKeys (·.table != table)).get? ⟨u, k⟩).map _ = _
  rw [SortedMap.get?_filterKeys]
  by_cases hu : u = table
  · rw [if_pos hu, if_neg (by simpa using hu)]; rfl
  · rw [if_neg hu, if_pos (by simpa using hu), get?_rowsIn, loadRow]

theorem view_deleteTable (s : DurableStore) (table : String) :
    (s.deleteTable table).view = s.view.deleteTable table := by
  apply MemoryStore.ext_tables
  intro u
  rw [get?_view, rowsIn_deleteTable]
  show ((s.registry.erase table).get? u).map _ = (s.view.tables.erase table).get? u
  by_cases hu : u = table
  · subst hu; rw [SortedMap.get?_erase_self, SortedMap.get?_erase_self]; rfl
  · rw [SortedMap.get?_erase_ne _ hu, SortedMap.get?_erase_ne _ hu, get?_view, if_neg hu]

theorem contains_view (s : DurableStore) (table : String) :
    (s.registry.contains table = true ∧ s.view.tables.get? table = some (rowsIn s.rows table)) ∨
      (s.registry.contains table = false ∧ s.view.tables.get? table = none) := by
  rw [get?_view, SortedMap.contains_eq]
  rcases s.registry.get? table with _ | ⟨⟩
  · exact Or.inr ⟨rfl, rfl⟩
  · exact Or.inl ⟨rfl, rfl⟩

theorem getEntity_view (s : DurableStore) (table : String) (k : RowKey) :
    s.getEntity table k = s.view.getEntity table k := by
  unfold getEntity MemoryStore.getEntity
  rcases s.contains_view table with ⟨hc, ht⟩ | ⟨hc, ht⟩
  · rw [hc, ht, if_pos rfl, ← get?_rowsIn]
  · rw [hc, ht, if_neg Bool.false_ne_true]

theorem isPast_eq (after : Option RowKey) (k : RowKey) :
    k.isPast after.isSome (after.getD ⟨"", ""⟩) = after.all (compare · k == .lt) := by
  cases after with
  | none => rfl
  | some j =>
    have hcompare : compare j k = (compare j.partition k.partition).then (compare j.row k.row) := rfl
    show (decide (j.partition < k.partition) || (k.partition == j.partition && decide (j.row < k.row))) =
      (compare j k == .lt)
    rw [Bool.eq_iff_iff, hcompare, Bool.or_eq_true, Bool.and_eq_true, decide_eq_true_iff, decide_eq_true_iff,
      beq_iff_eq, beq_iff_eq, Ordering.then_eq_lt, compare_lt_iff_lt, compare_lt_iff_lt, Std.compare_eq_iff_eq,
      eq_comm (a := k.partition)]

theorem rowsPast_view (s : DurableStore) (table : String) (after : Option RowKey) :
    s.rowsPast table after = ((rowsIn s.rows table).past after).map (·.2) := by
  simp only [rowsPast, isPast_eq]
  cases after with
  | none => simp only [SortedMap.past, rowsIn, List.map_map, Option.all_none, Bool.and_true]; rfl
  | some k =>
    simp only [SortedMap.past, rowsIn, List.filter_map, List.map_map, List.filter_filter]
    congr 1
    apply List.filter_congr
    intro e _
    exact Bool.and_comm _ _

theorem queryPage_view (s : DurableStore) (table : String) (size : Nat) (after : Option RowKey) :
    s.queryPage table size after = s.view.queryPage table size after := by
  unfold queryPage MemoryStore.queryPage
  rcases s.contains_view table with ⟨hc, ht⟩ | ⟨hc, ht⟩
  · simp only [hc, ht, if_pos, rowsPast_view]
  · rw [hc, ht, if_neg Bool.false_ne_true]

/-- A batch answers alike on both, and leaves corresponding stores in which it changed one table at most. -/
theorem submitBatch_view (s : DurableStore) (table p : String) (actions : List BatchAction) :
    (s.submitBatch table p actions).1 = (s.view.submitBatch table p actions).1 ∧
      (s.submitBatch table p actions).2.view = (s.view.submitBatch table p actions).2 ∧
      (s.submitBatch table p actions).2.registry = s.registry ∧
      ∀ u, s.registry.get? u = none → rowsIn (s.submitBatch table p actions).2.rows u = rowsIn s.rows u := by
  rw [MemoryStore.submitBatch_eq]
  simp only [submitBatch]
  rcases checkBatch p actions with e | ⟨⟩
  · exact ⟨rfl, rfl, rfl, fun _ _ => rfl⟩
  · rcases s.contains_view table with ⟨hc, ht⟩ | ⟨hc, ht⟩
    · rw [hc, ht, if_pos rfl]
      rcases applyActions_view table 0 s.rows actions with ⟨e, hd, hm⟩ | ⟨after, hd, hm, hother⟩
      · simp only [hd, hm]
        exact ⟨trivial, trivial, trivial, fun _ _ => trivial⟩
      · simp only [hd, hm]
        refine ⟨trivial, ?_, trivial, ?_⟩
        · apply MemoryStore.ext_tables
          intro u
          refine (get?_view _ u).trans ?_
          show (s.registry.get? u).map (fun _ => rowsIn after u) =
            (s.view.withRows table (rowsIn after table)).tables.get? u
          rw [MemoryStore.get?_withRows, get?_view]
          by_cases hu : u = table
          · subst hu
            rw [SortedMap.contains_eq] at hc
            obtain ⟨⟨⟩, hr⟩ := Option.isSome_iff_exists.mp hc
            rw [if_pos rfl, hr]; rfl
          · rw [if_neg hu, hother u hu]
        · intro u hu
          apply hother u
          intro he
          subst he
          rw [SortedMap.contains_eq, hu] at hc; cases hc
    · rw [hc, ht, if_neg Bool.false_ne_true]
      exact ⟨rfl, rfl, rfl, fun _ _ => rfl⟩

/-! ## every call -/

theorem answer_view (s : DurableStore) (c : Call) : (TableStore.perform s c).1 = (TableStore.perform s.view c).1 := by
  cases c with
  | ensureTable t | deleteTable t => rfl
  | getEntity t k => exact s.getEntity_view t k
  | submitBatch t p actions => exact (s.submitBatch_view t p actions).1
  | queryPage t n after => exact s.queryPage_view t n after

theorem perform_view {s : DurableStore} (h : s.Registered) (c : Call) :
    (TableStore.perform s c).2.view = (TableStore.perform s.view c).2 := by
  cases c with
  | ensureTable t => exact view_ensureTable h t
  | deleteTable t => exact s.view_deleteTable t
  | getEntity t k => rfl
  | submitBatch t p actions => exact (s.submitBatch_view t p actions).2.1
  | queryPage t n after => rfl

theorem registered_empty : empty.Registered := by
  intro table _
  rfl

theorem Registered.perform {s : DurableStore} (h : s.Registered) (c : Call) :
    (TableStore.perform s c).2.Registered := by
  cases c with
  | ensureTable t =>
    intro u hu
    have hu : (s.registry.insert t ()).get? u = none := hu
    rw [SortedMap.get?_insert] at hu
    by_cases hut : u = t
    · rw [if_pos hut] at hu; cases hu
    · rw [if_neg hut] at hu; exact h u hu
  | deleteTable t =>
    intro u hu
    have hu : (s.registry.erase t).get? u = none := hu
    show rowsIn (s.deleteTable t).rows u = .empty
    rw [rowsIn_deleteTable]
    by_cases hut : u = t
    · rw [if_pos hut]
    · rw [SortedMap.get?_erase_ne _ hut] at hu
      rw [if_neg hut]; exact h u hu
  | getEntity t k => exact h
  | submitBatch t p actions =>
    intro u hu
    obtain ⟨-, -, hregistry, hrows⟩ := s.submitBatch_view t p actions
    have hu : s.registry.get? u = none := hregistry ▸ hu
    exact (hrows u hu).trans (h u hu)
  | queryPage t n after => exact h

theorem registered_of_reachable {s : DurableStore} (h : ReachableFrom empty s) : s.Registered := by
  induction h with
  | refl => exact registered_empty
  | call _ c ih => exact ih.perform c

/-- Relations that read alike are the same: the tables tell the registered names, and their rows all rows. -/
theorem eq_of_view {s t : DurableStore} (hs : s.Registered) (ht : t.Registered) (h : s.view = t.view) : s = t := by
  have htables : ∀ u, (s.registry.get? u).map (fun _ => rowsIn s.rows u) =
      (t.registry.get? u).map fun _ => rowsIn t.rows u := by
    intro u
    rw [← get?_view, ← get?_view, h]
  have hregistry : s.registry = t.registry := by
    apply SortedMap.ext_get?
    intro u
    have := htables u
    rcases hu : s.registry.get? u with _ | ⟨⟩ <;> rcases hu' : t.registry.get? u with _ | ⟨⟩ <;>
      simp [hu, hu'] at this ⊢
  have hrowsIn : ∀ u, rowsIn s.rows u = rowsIn t.rows u := by
    intro u
    have := htables u
    rcases hu : s.registry.get? u with _ | ⟨⟩
    · rw [hs u hu, ht u (hregistry ▸ hu)]
    · rw [← hregistry, hu] at this
      exact Option.some.inj this
  have hrows : s.rows = t.rows := by
    apply SortedMap.ext_get?
    intro a
    have := congrArg (·.get? a.key) (hrowsIn a.table)
    simp only [get?_rowsIn, loadRow] at this
    exact Option.map_injective (fun p q hpq => congrArg Entity.properties hpq) this
  cases s
  cases t
  simp only at hregistry hrows
  rw [hregistry, hrows]

/-! ## how many rows there are -/

/-- Counted class by class, members whose classes are among distinct keys are counted once. -/
theorem sum_classes {κ α : Type} [DecidableEq κ] (key : α → κ) {keys : List κ} (hn : keys.Nodup) (l : List α) :
    (keys.map fun k => (l.filter (key · = k)).length).sum = (l.filter (key · ∈ keys)).length := by
  induction keys with
  | nil => simp
  | cons j keys ih =>
    obtain ⟨hj, hk⟩ := List.nodup_cons.mp hn
    rw [List.map_cons, List.sum_cons, ih hk]
    clear ih
    induction l with
    | nil => rfl
    | cons a r ih =>
      by_cases haj : key a = j
      · simp [haj, hj] at ih ⊢; omega
      · by_cases hak : key a ∈ keys
        · simp [haj, hak] at ih ⊢; omega
        · simp [haj, hak] at ih ⊢; omega

/-- Every row is counted with the rows of its table. -/
theorem Registered.rowTotal {s : DurableStore} (h : s.Registered) :
    (s.tableNames.map fun table => (s.rows.entries.filter (·.1.table == table)).length).sum =
      TableStore.rowTotal s := by
  have hmem : ∀ e ∈ s.rows.entries, e.1.table ∈ s.registry.keys := by
    intro e he
    rcases hr : s.registry.get? e.1.table with _ | ⟨⟩
    · have hin : (e.1.key, (⟨e.1.key, e.2⟩ : Entity)) ∈ (rowsIn s.rows e.1.table).entries :=
        List.mem_map.mpr ⟨e, List.mem_filter.mpr ⟨he, by simp⟩, rfl⟩
      rw [h _ hr] at hin
      cases hin
    · exact SortedMap.mem_keys_iff.mpr ⟨_, hr⟩
  have hall : s.rows.entries.filter (·.1.table ∈ s.registry.keys) = s.rows.entries := by
    rw [List.filter_eq_self]
    intro e he
    exact decide_eq_true (hmem e he)
  have hclasses := sum_classes (fun e : RowAddress × Properties => e.1.table) s.registry.nodup_keys s.rows.entries
  rw [hall] at hclasses
  exact hclasses

theorem rowTotal_view {s : DurableStore} (h : s.Registered) : TableStore.rowTotal s = TableStore.rowTotal s.view := by
  rw [MemoryStore.rowTotal_eq, ← h.rowTotal]
  simp only [view, tableNames, SortedMap.values, SortedMap.mapValues, SortedMap.keys, List.map_map]
  congr 1
  apply List.map_congr_left
  intro e _
  show _ = ((s.rows.entries.filter (·.1.table == e.1)).map _).length
  rw [List.length_map]
  rfl

end DurableStore

end TableMigrations
