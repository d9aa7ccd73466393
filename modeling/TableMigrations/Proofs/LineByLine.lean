/-
  TableMigrations.Proofs.LineByLine — what a migration means, one line after another, and why the plan does just that.

  A table's lines are cut after every patch of the whole table. A segment empties the table first if it says so
  anywhere, then does its row writes in order, then patches every row. `effects_planSteps` finds the plan's effects to
  be these, table by table, although the plan sorts by table and by partition and writes only when it has to.
-/
import TableMigrations.Proofs.Effects

namespace TableMigrations

/-- The changes between two patches of the whole table, with the patch that ends them, if one does. -/
structure Segment where
  changes : List Change
  patch : Option Patch

/-- Cuts changes after every patch of the whole table; `gathered` are those since the last one. -/
def segmentsFrom (gathered : List Change) : List Change → List Segment
  | [] => [⟨gathered, none⟩]
  | .updateAll patch :: r => ⟨gathered, some patch⟩ :: segmentsFrom [] r
  | .row kind e :: r => segmentsFrom (gathered ++ [.row kind e]) r
  | .deleteAll :: r => segmentsFrom (gathered ++ [.deleteAll]) r

def rowWrites (changes : List Change) : List (ActionKind × Entity) :=
  changes.filterMap fun
    | .row kind e => some (kind, e)
    | .updateAll _ | .deleteAll => none

def rowActions (changes : List Change) : List BatchAction := (rowWrites changes).map fun w => .ofRow w.1 w.2

namespace Segment

def base (s : Segment) (rows : Rows) : Rows := if .deleteAll ∈ s.changes then .empty else rows

def finish (s : Segment) (rows : Rows) : Rows :=
  match s.patch with
  | some patch => rows.patchAll patch
  | none => rows

def apply (rows : Rows) (s : Segment) : Option Rows :=
  ((rowWrites s.changes).foldlM (fun rows w => Rows.write rows w.1 w.2) (s.base rows)).map s.finish

end Segment

/-- What a table's changes make of its rows, line by line. -/
def lineByLine (rows : Rows) (changes : List Change) : Option Rows :=
  (segmentsFrom [] changes).foldlM Segment.apply rows

def changesOf (ops : List Operation) (table : String) : List Change := (ops.filter (·.table = table)).map (·.change)

def TableGroup.changes (g : TableGroup) : List Change := g.operations.map (·.change)

theorem changes_of_group {ops : List Operation} {g : TableGroup} (hg : g ∈ groupByTable ops) :
    g.table ∈ ops.map (·.table) ∧ g.changes = changesOf ops g.table := by
  rw [groupByTable_eq] at hg
  obtain ⟨t, ht, rfl⟩ := List.mem_map.mp hg
  exact ⟨List.mem_eraseDups.mp ht, rfl⟩

theorem table_of_groupByTable (ops : List Operation) :
    (groupByTable ops).map (·.table) = (ops.map (·.table)).eraseDups := by
  rw [groupByTable_eq, List.map_map]; exact List.map_id _

theorem rowActions_append (l r : List Change) : rowActions (l ++ r) = rowActions l ++ rowActions r := by
  simp [rowActions, rowWrites]

theorem writeAll_rowActions (rows : Rows) (changes : List Change) :
    Rows.writeAll rows (rowActions changes) =
      (rowWrites changes).foldlM (fun rows w => Rows.write rows w.1 w.2) rows := by
  rw [Rows.writeAll, rowActions, List.foldlM_map]
  simp only [Rows.write_ofRow]

/-! ## what a plan holds -/

/-- What a step may be that is planned for a table with these row writes and changes: the table is emptied and scanned
    only where a change asks for that, and batches hold none but the writes. A scan stands at its start. -/
inductive Step.Serves (limits : Limits) (table : String) (writes : List BatchAction) (changes : List Change) :
    Step → Prop
  | prepare : Serves limits table writes changes (.prepare table)
  | drop (h : .deleteAll ∈ changes) : Serves limits table writes changes (.drop table)
  | recreate (h : .deleteAll ∈ changes) : Serves limits table writes changes (.recreate table)
  | submit {b : Batch} (ht : b.table = table) (ha : ∀ a ∈ b.actions, a ∈ writes) :
    Serves limits table writes changes (.submit b)
  | scan {patch : Patch} (h : .updateAll patch ∈ changes) :
    Serves limits table writes changes (.scan (.start table limits.page) patch)

theorem Step.Serves.mono {limits : Limits} {table : String} {writes more : List BatchAction}
    {changes changes' : List Change} {step : Step} (h : step.Serves limits table writes changes)
    (hw : ∀ a ∈ writes, a ∈ more) (hc : ∀ c ∈ changes, c ∈ changes') : step.Serves limits table more changes' := by
  cases h with
  | prepare => exact .prepare
  | drop h => exact .drop (hc _ h)
  | recreate h => exact .recreate (hc _ h)
  | submit ht ha => exact .submit ht fun a h => hw a (ha a h)
  | scan h => exact .scan (hc _ h)

theorem serves_submitSteps {limits : Limits} {table : String} {actions : List BatchAction} {changes : List Change}
    {step : Step} (h : step ∈ submitSteps table actions limits) : step.Serves limits table actions changes := by
  obtain ⟨b, hb, rfl⟩ := List.mem_map.mp h
  obtain ⟨ht, -, -, ha⟩ := mem_chunkByPartition hb
  exact .submit ht fun a h => (ha a h).1

theorem serves_changeSteps {limits : Limits} {table : String} {gathered : List BatchAction} {changes : List Change}
    {step : Step} (h : step ∈ changeSteps limits table gathered changes) :
    step.Serves limits table (gathered ++ rowActions changes) changes := by
  induction changes generalizing gathered with
  | nil => exact (serves_submitSteps h).mono (fun _ => List.mem_append_left _) (fun _ h => h)
  | cons c r ih =>
    -- what the rest may do, the whole may do: the row writes of `c` are in the rest's gathered or not there at all
    have hrest : ∀ {gathered' : List BatchAction}, (∀ a ∈ gathered', a ∈ gathered ++ rowActions [c]) →
        step ∈ changeSteps limits table gathered' r →
        step.Serves limits table (gathered ++ rowActions (c :: r)) (c :: r) := by
      intro gathered' hg hs
      refine (ih hs).mono ?_ (fun _ => List.mem_cons_of_mem c)
      intro a ha
      rw [← List.singleton_append, rowActions_append, ← List.append_assoc]
      rcases List.mem_append.mp ha with ha | ha
      · exact List.mem_append_left _ (hg a ha)
      · exact List.mem_append_right _ ha
    cases c with
    | row kind e => exact hrest (fun _ ha => ha) h
    | deleteAll =>
      simp only [changeSteps, List.mem_cons] at h
      rcases h with rfl | rfl | h
      · exact .drop List.mem_cons_self
      · exact .recreate List.mem_cons_self
      · exact hrest (fun _ => List.mem_append_left _) h
    | updateAll patch =>
      simp only [changeSteps, List.mem_append, List.mem_cons] at h
      rcases h with h | rfl | h
      · exact (serves_submitSteps h).mono (fun _ => List.mem_append_left _) (fun _ h => h)
      · exact .scan List.mem_cons_self
      · exact hrest (by simp) h

/-- Every step of a plan is there for one of the tables that are named, and for what is asked of that. -/
theorem serves_planSteps {limits : Limits} {ops : List Operation} {step : Step} (h : step ∈ planSteps limits ops) :
    ∃ t ∈ ops.map (·.table), step.Serves limits t (rowActions (changesOf ops t)) (changesOf ops t) := by
  obtain ⟨g, hg, hs⟩ := List.mem_flatMap.mp h
  obtain ⟨ht, hc⟩ := changes_of_group hg
  refine ⟨g.table, ht, ?_⟩
  rcases List.mem_cons.mp hs with rfl | hs
  · exact .prepare
  · rw [← hc]
    exact serves_changeSteps hs

def Step.Fresh (limits : Limits) : Step → Prop
  | .scan pager _ => pager = .start pager.table limits.page
  | .prepare _ | .drop _ | .recreate _ | .submit _ => True

theorem fresh_planSteps {limits : Limits} {ops : List Operation} {step : Step} (h : step ∈ planSteps limits ops) :
    step.Fresh limits := by
  obtain ⟨t, -, hs⟩ := serves_planSteps h
  cases hs with
  | prepare | drop | recreate | submit => trivial
  | scan => rfl

/-! ## the steps of one table -/

section

variable {limits : Limits} (hl : limits.Sound) {table : String}

include hl

theorem effects_gathered {s : MemoryStore} {rows : Rows} {gathered : List Change}
    (ht : s.tables.get? table = some ((Segment.mk gathered none).base rows)) :
    effects s (submitSteps table (rowActions gathered) limits) =
      (Segment.apply rows ⟨gathered, none⟩).map (s.withRows table) := by
  have hfinish : (Segment.mk gathered none).finish = id := rfl
  rw [effects_submitSteps hl ht, writeAll_rowActions, Segment.apply, hfinish, Option.map_id]
  rfl

/-- Emptying the table at once and writing rows late, the steps do what the segments say. The rows are those before
    the segment that is being gathered. -/
theorem effects_changeSteps (changes gathered : List Change) {s : MemoryStore} {rows : Rows}
    (ht : s.tables.get? table = some ((Segment.mk gathered none).base rows)) :
    effects s (changeSteps limits table (rowActions gathered) changes) =
      ((segmentsFrom gathered changes).foldlM Segment.apply rows).map (s.withRows table) := by
  induction changes generalizing s rows gathered with
  | nil =>
    rw [changeSteps, segmentsFrom, effects_gathered hl ht, List.foldlM_cons]
    rcases Segment.apply rows ⟨gathered, none⟩ <;> rfl
  | cons c r ih =>
    cases c with
    | row kind e =>
      have hb : (Segment.mk (gathered ++ [.row kind e]) none).base rows = (Segment.mk gathered none).base rows := by
        simp [Segment.base]
      have := ih (gathered ++ [.row kind e]) (ht.trans (congrArg some hb.symm))
      rw [rowActions_append] at this
      exact this
    | deleteAll =>
      have hw : rowActions (gathered ++ [.deleteAll]) = rowActions gathered := by simp [rowActions, rowWrites]
      have hb : (Segment.mk (gathered ++ [.deleteAll]) none).base rows = .empty := by simp [Segment.base]
      have hempty : effects s [.drop table, .recreate table] = some (s.withRows table .empty) :=
        congrArg some (s.ensureTable_deleteTable table)
      have := ih (gathered ++ [.deleteAll])
        ((s.get?_withRows_self table .empty).trans (congrArg some hb.symm))
      rw [hw, s.withRows_over] at this
      show effects s ([.drop table, .recreate table] ++ changeSteps limits table _ r) = _
      rw [effects_append, hempty]
      exact this
    | updateAll patch =>
      have happly : Segment.apply rows ⟨gathered, some patch⟩ =
          (Segment.apply rows ⟨gathered, none⟩).map (Rows.patchAll patch) := by
        simp only [Segment.apply, Option.map_map]; rfl
      rw [changeSteps, segmentsFrom, effects_append, effects_gathered hl ht, List.foldlM_cons, happly]
      rcases Segment.apply rows ⟨gathered, none⟩ with _ | written
      · rfl
      · have hscan : (Step.scan (.start table limits.page) patch).effect (s.withRows table written) =
            some (s.withRows table (written.patchAll patch)) := by
          show ((s.withRows table written).tables.get? table).map _ = _
          rw [s.get?_withRows_self]
          exact congrArg some (s.withRows_withRows table written _)
        have := @ih [] _ (written.patchAll patch) (s.get?_withRows_self table (written.patchAll patch))
        rw [s.withRows_over] at this
        show effects (s.withRows table written)
          (.scan (.start table limits.page) patch :: changeSteps limits table [] r) = _
        rw [effects_cons, hscan]
        exact this

/-- The steps of a table do what its lines say, and the table is there afterwards. -/
theorem effects_tableSteps (s : MemoryStore) (g : TableGroup) :
    effects s (g.steps limits) = (lineByLine (s.rowsOf g.table) g.changes).map (s.withRows g.table) := by
  have := effects_changeSteps hl g.changes [] (s.get?_withRows_self g.table (s.rowsOf g.table))
  rw [s.withRows_over] at this
  rw [TableGroup.steps, effects_cons]
  show effects (s.ensureTable g.table) _ = _
  rw [s.ensureTable_eq]
  exact this

/-! ## the whole plan -/

/-- Groups of distinct tables do what each table's lines say, and leave the other tables alone; they fail exactly when
    some table's lines fail. -/
theorem effects_groups (groups : List TableGroup) (hn : (groups.map (·.table)).Nodup) (s : MemoryStore) :
    (∃ after, effects s (groups.flatMap (·.steps limits)) = some after ∧
      (∀ g ∈ groups, ∃ rows, lineByLine (s.rowsOf g.table) g.changes = some rows ∧
        after.tables.get? g.table = some rows) ∧
      ∀ t ∉ groups.map (·.table), after.tables.get? t = s.tables.get? t) ∨
    (effects s (groups.flatMap (·.steps limits)) = none ∧
      ∃ g ∈ groups, lineByLine (s.rowsOf g.table) g.changes = none) := by
  induction groups generalizing s with
  | nil =>
    refine Or.inl ⟨s, rfl, ?_, ?_⟩
    · intro g hg; cases hg
    · intro t _; rfl
  | cons g r ih =>
    obtain ⟨hg, hr⟩ := List.nodup_cons.mp hn
    rw [List.flatMap_cons, effects_append, effects_tableSteps hl]
    rcases hw : lineByLine (s.rowsOf g.table) g.changes with _ | rows
    · exact Or.inr ⟨rfl, g, List.mem_cons_self, hw⟩
    · have hother : ∀ g' ∈ r, (s.withRows g.table rows).rowsOf g'.table = s.rowsOf g'.table := by
        intro g' h
        rw [s.rowsOf_withRows, if_neg]
        intro he
        exact hg (List.mem_map.mpr ⟨g', h, he⟩)
      rw [Option.map_some, Option.bind_some]
      rcases ih hr (s.withRows g.table rows) with ⟨after, he, hin, hout⟩ | ⟨he, g', hg', hnone⟩
      · refine Or.inl ⟨after, he, ?_, ?_⟩
        · intro g' hg'
          rcases List.mem_cons.mp hg' with rfl | hg'
          · exact ⟨rows, hw, (hout _ hg).trans (s.get?_withRows_self _ rows)⟩
          · rw [← hother g' hg']; exact hin g' hg'
        · intro t ht
          rw [List.map_cons, List.mem_cons, not_or] at ht
          rw [hout t ht.2, s.get?_withRows, if_neg ht.1]
      · exact Or.inr ⟨he, g', List.mem_cons_of_mem _ hg', (hother g' hg') ▸ hnone⟩

/-- The plan does what the lines say, table by table. -/
theorem effects_planSteps (ops : List Operation) (s : MemoryStore) :
    (∃ after, effects s (planSteps limits ops) = some after ∧
      (∀ t ∈ ops.map (·.table), ∃ rows, lineByLine (s.rowsOf t) (changesOf ops t) = some rows ∧
        after.tables.get? t = some rows) ∧
      ∀ t ∉ ops.map (·.table), after.tables.get? t = s.tables.get? t) ∨
    (effects s (planSteps limits ops) = none ∧
      ∃ t ∈ ops.map (·.table), lineByLine (s.rowsOf t) (changesOf ops t) = none) := by
  have hn : ((groupByTable ops).map (·.table)).Nodup := by rw [table_of_groupByTable]; exact nodup_eraseDups _
  have hmem (t : String) : t ∈ (groupByTable ops).map (·.table) ↔ t ∈ ops.map (·.table) := by
    rw [table_of_groupByTable]; exact List.mem_eraseDups
  rcases effects_groups hl (groupByTable ops) hn s with ⟨after, he, hin, hout⟩ | ⟨he, g, hg, hnone⟩
  · refine Or.inl ⟨after, he, ?_, ?_⟩
    · intro t ht
      obtain ⟨g, hg, rfl⟩ := List.mem_map.mp ((hmem t).mpr ht)
      rw [← (changes_of_group hg).2]; exact hin g hg
    · intro t ht
      apply hout t
      intro h
      exact ht ((hmem t).mp h)
  · refine Or.inr ⟨he, g.table, (changes_of_group hg).1, ?_⟩
    rw [← (changes_of_group hg).2]; exact hnone

end

end TableMigrations
