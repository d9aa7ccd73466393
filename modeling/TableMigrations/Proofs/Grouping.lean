/-
  TableMigrations.Proofs.Grouping — the groups that operations are carried out in, table by table.

  A grouping of operations is told from the outside (`Grouping`): one group for each table that they are on, in the
  order in which these are first named, each with all operations on its table in their order. `groupByTable` is one, and
  there is no other (`grouping_iff`): which tables have groups is settled by what the groups hold together
  (`Grouping.mem_tables`), their order by the first operation on each, and what a group holds by its table.
-/
import Mathlib.Data.List.Basic
import Mathlib.Data.List.Induction
import TableMigrations.Proofs.Plan

namespace TableMigrations

/-- Without its repetitions a list is in the order of first appearance. -/
theorem pairwise_idxOf_eraseDups {κ : Type} [DecidableEq κ] (l : List κ) :
    l.eraseDups.Pairwise fun j k => l.idxOf j < l.idxOf k := by
  induction l using List.reverseRecOn with
  | nil => simp
  | append_singleton l k ih =>
    have hearlier : ∀ j ∈ l.eraseDups, (l ++ [k]).idxOf j = l.idxOf j := by
      intro j hj
      exact List.idxOf_append_of_mem (List.mem_eraseDups.mp hj)
    have hkept : l.eraseDups.Pairwise fun i j => (l ++ [k]).idxOf i < (l ++ [k]).idxOf j := by
      refine ih.imp_of_mem ?_
      intro i j hi hj hlt
      rwa [hearlier i hi, hearlier j hj]
    rw [eraseDups_concat]
    split_ifs with hk
    · exact hkept
    · refine List.pairwise_append.mpr ⟨hkept, List.pairwise_singleton _ k, ?_⟩
      intro j hj _ hnew
      rw [List.mem_singleton.mp hnew, hearlier j hj, List.idxOf_append_of_notMem hk]
      have := List.idxOf_lt_length_of_mem (List.mem_eraseDups.mp hj)
      omega

/-! ## groupings -/

/-- The groups that operations are to be carried out in. -/
structure Grouping (ops : List Operation) (groups : List TableGroup) : Prop where
  distinct : (groups.map (·.table)).Nodup
  /-- The tables come in the order in which they are first named. -/
  order : (groups.map (·.table)).Pairwise fun t u => (ops.map (·.table)).idxOf t < (ops.map (·.table)).idxOf u
  nonempty : ∀ g ∈ groups, g.operations ≠ []
  /-- A group holds just the operations on its table, in their order. -/
  own : ∀ g ∈ groups, g.operations = ops.filter (·.table = g.table)
  /-- One group after another, the groups hold every operation as often as it is there, and no other. -/
  whole : (groups.flatMap (·.operations)).Perm ops

theorem grouping_groupByTable (ops : List Operation) : Grouping ops (groupByTable ops) := by
  have htables : (groupByTable ops).map (·.table) = (ops.map (·.table)).eraseDups := by
    rw [groupByTable_eq, List.map_map]
    exact List.map_id _
  have hgroup : ∀ g ∈ groupByTable ops,
      g.table ∈ ops.map (·.table) ∧ g.operations = ops.filter (·.table = g.table) := by
    intro g hg
    rw [groupByTable_eq] at hg
    obtain ⟨t, ht, rfl⟩ := List.mem_map.mp hg
    exact ⟨List.mem_eraseDups.mp ht, rfl⟩
  constructor
  case distinct =>
    rw [htables]
    exact nodup_eraseDups _
  case order =>
    rw [htables]
    exact pairwise_idxOf_eraseDups _
  case nonempty =>
    intro g hg
    obtain ⟨hnamed, hown⟩ := hgroup g hg
    obtain ⟨op, hop, ht⟩ := List.mem_map.mp hnamed
    rw [hown]
    exact List.ne_nil_of_mem (List.mem_filter.mpr ⟨hop, decide_eq_true ht⟩)
  case own =>
    intro g hg
    exact (hgroup g hg).2
  case whole =>
    rw [groupByTable, List.flatMap_map]
    exact flatMap_classify_perm _ ops

section

variable {ops : List Operation} {groups more : List TableGroup}

theorem Grouping.mem_tables (h : Grouping ops groups) {t : String} :
    t ∈ groups.map (·.table) ↔ t ∈ ops.map (·.table) := by
  constructor
  · intro ht
    obtain ⟨g, hg, rfl⟩ := List.mem_map.mp ht
    obtain ⟨op, hop⟩ := List.exists_mem_of_ne_nil _ (h.nonempty g hg)
    rw [h.own g hg, List.mem_filter] at hop
    exact List.mem_map.mpr ⟨op, hop.1, of_decide_eq_true hop.2⟩
  · intro ht
    obtain ⟨op, hop, rfl⟩ := List.mem_map.mp ht
    obtain ⟨g, hg, hop⟩ := List.mem_flatMap.mp (h.whole.mem_iff.mpr hop)
    rw [h.own g hg, List.mem_filter] at hop
    exact List.mem_map.mpr ⟨g, hg, (of_decide_eq_true hop.2).symm⟩

/-- The tables tell the groups. -/
theorem Grouping.eq_map (h : Grouping ops groups) :
    groups = (groups.map (·.table)).map fun t => ⟨t, ops.filter (·.table = t)⟩ := by
  rw [List.map_map]
  refine (List.map_id groups).symm.trans (List.map_congr_left fun g hg => ?_)
  exact congrArg (TableGroup.mk g.table) (h.own g hg)

theorem Grouping.unique (h : Grouping ops groups) (h' : Grouping ops more) : groups = more := by
  have hmem : ∀ t, t ∈ groups.map (·.table) ↔ t ∈ more.map (·.table) := by
    intro t
    rw [h.mem_tables, h'.mem_tables]
  have htables : groups.map (·.table) = more.map (·.table) := by
    refine ((List.perm_ext_iff_of_nodup h.distinct h'.distinct).mpr hmem).eq_of_pairwise ?_ h.order h'.order
    intro t u _ _ htu hut
    omega
  rw [h.eq_map, h'.eq_map, htables]

end

/-- The groups by table are the grouping of the operations, and no other list of groups is. -/
theorem grouping_iff (ops : List Operation) (groups : List TableGroup) :
    Grouping ops groups ↔ groups = groupByTable ops := by
  constructor
  · intro h
    exact h.unique (grouping_groupByTable ops)
  · rintro rfl
    exact grouping_groupByTable ops

example :
    (groupByTable [⟨"b", .deleteAll⟩, ⟨"a", .deleteAll⟩, ⟨"b", .row .add (.bare ⟨"p", "r"⟩)⟩]).map
      (fun g => (g.table, g.operations.length)) = [("b", 2), ("a", 1)] := by
  decide +kernel

end TableMigrations
