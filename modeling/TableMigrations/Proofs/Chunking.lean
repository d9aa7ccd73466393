/-
  TableMigrations.Proofs.Chunking — the batches that row writes are cut into.

  A batching of row writes is told from the outside (`Batching`): partition after partition, each with all its writes in
  order, in batches of which only the last may have room left. `chunkByPartition` is one, and there is no other
  (`batching_iff`), because runs of a full size with a shorter one at the end are the only way to cut a list so
  (`eq_pieces`), and the batches of a partition are such a cut of its writes (`filter_chunkByPartition`).
-/
import Mathlib.Algebra.Order.Floor.Div
import TableMigrations.Proofs.Plan

namespace TableMigrations

/-! ## pieces -/

section pieces

variable {α : Type}

theorem pieces_max (size : Nat) (l : List α) : pieces (max size 1) l = pieces size l := by
  have hsize : max size 1 - 1 = size - 1 := by omega
  fun_induction pieces size l with
  | case1 => rw [pieces]
  | case2 a l ih => rw [pieces, hsize, ih]

theorem length_pieces {size : Nat} (hs : 1 ≤ size) (l : List α) : (pieces size l).length = l.length ⌈/⌉ size := by
  fun_induction pieces size l with
  | case1 => simp
  | case2 a l ih =>
    rw [List.length_cons, ih, List.length_drop, List.length_cons, Nat.ceilDiv_eq_add_pred_div,
      Nat.ceilDiv_eq_add_pred_div, show l.length + 1 + size - 1 = l.length + size by omega,
      Nat.add_div_right _ (by omega), Nat.add_right_cancel_iff]
    by_cases h : size - 1 ≤ l.length
    · rw [show l.length - (size - 1) + size - 1 = l.length by omega]
    · rw [Nat.div_eq_of_lt (by omega), Nat.div_eq_of_lt (by omega)]

/-- Only the last piece may be short. -/
theorem length_of_mem_dropLast {size : Nat} (hs : 1 ≤ size) {l p : List α} (h : p ∈ (pieces size l).dropLast) :
    p.length = size := by
  fun_induction pieces size l with
  | case1 => cases h
  | case2 a l ih =>
    rcases hrest : pieces size (l.drop (size - 1)) with _ | ⟨q, r⟩
    · rw [hrest] at h
      cases h
    · have hmore : l.drop (size - 1) ≠ [] := by
        intro hnil
        rw [hnil, pieces] at hrest
        cases hrest
      have hlength : ¬ l.length ≤ size - 1 := fun hle => hmore (List.drop_eq_nil_of_le hle)
      rw [hrest] at h ih
      rcases List.mem_cons.mp h with rfl | h
      · rw [List.length_cons, List.length_take]
        omega
      · exact ih h

/-- Runs that are full but for the last are the pieces of what they hold. -/
theorem eq_pieces {size : Nat} {ps : List (List α)} (hp : ∀ p ∈ ps, p ≠ [] ∧ p.length ≤ size)
    (hfull : ∀ p ∈ ps.dropLast, p.length = size) : ps = pieces size ps.flatten := by
  induction ps with
  | nil => rw [List.flatten_nil, pieces]
  | cons p ps ih =>
    obtain ⟨⟨hne, hle⟩, hrest⟩ := List.forall_mem_cons.mp hp
    by_cases hps : ps = []
    · subst hps
      have hone := pieces_append (l := []) hne hle (by simp)
      rw [List.flatten_singleton, ← List.append_nil p, hone, pieces, List.append_nil]
    · rw [List.dropLast_cons_of_ne_nil hps] at hfull
      obtain ⟨hfirst, hfull⟩ := List.forall_mem_cons.mp hfull
      rw [List.flatten_cons, pieces_append hne hle fun _ => hfirst, ← ih hrest hfull]

end pieces

/-! ## batches of one partition -/

section

variable (table : String) (actions : List BatchAction) (size : Nat)

theorem chunkByPartition_eq :
    chunkByPartition table actions size = (actions.map (·.partition)).eraseDups.flatMap fun k =>
      (pieces size (actions.filter (·.partition = k))).map (⟨table, k, ·⟩) := by
  rw [chunkByPartition, classify_eq, List.flatMap_map]

/-- The batches of a partition are its actions cut into pieces. -/
theorem filter_chunkByPartition (k : String) :
    (chunkByPartition table actions size).filter (·.partition = k) =
      (pieces size (actions.filter (·.partition = k))).map (⟨table, k, ·⟩) := by
  have hclass : ∀ j, ((pieces size (actions.filter (·.partition = j))).map (Batch.mk table j)).filter (·.partition = k) =
      if j = k then (pieces size (actions.filter (·.partition = k))).map (Batch.mk table k) else [] := by
    intro j
    by_cases hj : j = k
    · subst hj
      rw [if_pos rfl, List.filter_eq_self]
      intro b hb
      obtain ⟨p, -, rfl⟩ := List.mem_map.mp hb
      exact decide_eq_true rfl
    · rw [if_neg hj, List.filter_eq_nil_iff]
      intro b hb
      obtain ⟨p, -, rfl⟩ := List.mem_map.mp hb
      simpa using hj
  rw [chunkByPartition_eq, List.filter_flatMap]
  simp only [hclass]
  rw [flatMap_single (nodup_eraseDups _)]
  by_cases hk : k ∈ (actions.map (·.partition)).eraseDups
  · rw [if_pos hk]
  · have hnone : actions.filter (·.partition = k) = [] := by
      rw [List.filter_eq_nil_iff]
      intro a ha he
      exact hk (List.mem_eraseDups.mpr (List.mem_map.mpr ⟨a, ha, of_decide_eq_true he⟩))
    rw [if_neg hk, hnone, pieces, List.map_nil]

end

/-! ## batchings -/

/-- Batches of at most `size` actions as they are to be made of row writes on a table. -/
structure Batching (table : String) (actions : List BatchAction) (size : Nat) (batches : List Batch) : Prop where
  /-- A batch is for the table, is neither empty nor too long, and all of its actions are of its partition. -/
  sound : ∀ b ∈ batches, b.table = table ∧ b.actions ≠ [] ∧ b.actions.length ≤ size ∧
    ∀ a ∈ b.actions, a.partition = b.partition
  /-- The partitions come one after another, in the order in which they are first written to, each with as many batches
      as its actions take. -/
  runs : batches.map (·.partition) = (actions.map (·.partition)).eraseDups.flatMap fun k =>
    List.replicate ((actions.filter (·.partition = k)).length ⌈/⌉ size) k
  /-- The batches of a partition hold just its actions, in their order. -/
  complete : ∀ k, (batches.filter (·.partition = k)).flatMap (·.actions) = actions.filter (·.partition = k)
  /-- Of the batches of a partition only the last may be short. -/
  full : ∀ k, ∀ b ∈ (batches.filter (·.partition = k)).dropLast, b.actions.length = size
  count : ∀ k, (batches.filter (·.partition = k)).length = (actions.filter (·.partition = k)).length ⌈/⌉ size

section

variable {table : String} {actions : List BatchAction} {size : Nat}

theorem batching_chunkByPartition (hs : 1 ≤ size) :
    Batching table actions size (chunkByPartition table actions size) := by
  constructor
  case sound =>
    intro b hb
    obtain ⟨htable, hne, hlength, hactions⟩ := mem_chunkByPartition hb
    exact ⟨htable, hne, by omega, fun a ha => (hactions a ha).2⟩
  case runs =>
    have hrun : ∀ k, ((pieces size (actions.filter (·.partition = k))).map (Batch.mk table k)).map (·.partition) =
        List.replicate ((actions.filter (·.partition = k)).length ⌈/⌉ size) k := by
      intro k
      rw [List.map_map, ← length_pieces hs]
      exact List.map_const'
    rw [chunkByPartition_eq, List.map_flatMap]
    simp only [hrun]
  case complete =>
    intro k
    rw [filter_chunkByPartition, List.flatMap_def, List.map_map]
    show ((pieces size (actions.filter (·.partition = k))).map id).flatten = _
    rw [List.map_id, flatten_pieces]
  case full =>
    intro k b hb
    rw [filter_chunkByPartition, ← List.map_dropLast] at hb
    obtain ⟨p, hp, rfl⟩ := List.mem_map.mp hb
    exact length_of_mem_dropLast hs hp
  case count =>
    intro k
    rw [filter_chunkByPartition, List.length_map, length_pieces hs]

/-- Lists with the same keys in the same order are equal if they have the same members under each key. -/
theorem eq_of_filters {κ α : Type} [DecidableEq κ] (key : α → κ) {l m : List α} (hk : l.map key = m.map key)
    (hf : ∀ k, l.filter (key · = k) = m.filter (key · = k)) : l = m := by
  induction l generalizing m with
  | nil => exact (List.map_eq_nil_iff.mp hk.symm).symm
  | cons a l ih =>
    cases m with
    | nil => cases hk
    | cons b m =>
      obtain ⟨hkey, hrest⟩ := List.cons.inj hk
      have hab : a = b := by
        have hfirst := hf (key a)
        rw [List.filter_cons_of_pos (by simp), List.filter_cons_of_pos (by simp [hkey])] at hfirst
        exact (List.cons.inj hfirst).1
      subst hab
      rw [ih hrest]
      intro k
      have hboth := hf k
      by_cases ha : key a = k
      · rw [List.filter_cons_of_pos (by simpa using ha), List.filter_cons_of_pos (by simpa using ha)] at hboth
        exact (List.cons.inj hboth).2
      · rwa [List.filter_cons_of_neg (by simpa using ha), List.filter_cons_of_neg (by simpa using ha)] at hboth

/-- The batches of a partition can only be its actions cut into pieces. -/
theorem Batching.filter_eq {batches : List Batch} (h : Batching table actions size batches) (k : String) :
    batches.filter (·.partition = k) = (pieces size (actions.filter (·.partition = k))).map (⟨table, k, ·⟩) := by
  obtain ⟨own, hown⟩ : ∃ own, own = batches.filter (·.partition = k) := ⟨_, rfl⟩
  have hmem : ∀ b ∈ own, b ∈ batches ∧ b.partition = k := by
    intro b hb
    rw [hown, List.mem_filter] at hb
    exact ⟨hb.1, of_decide_eq_true hb.2⟩
  have hsame : own = (own.map (·.actions)).map (⟨table, k, ·⟩) := by
    rw [List.map_map]
    refine (List.map_id own).symm.trans (List.map_congr_left fun b hb => ?_)
    obtain ⟨hin, hk⟩ := hmem b hb
    obtain ⟨htable, -⟩ := h.sound b hin
    rw [← htable, ← hk]
    rfl
  have hsound : ∀ p ∈ own.map (·.actions), p ≠ [] ∧ p.length ≤ size := by
    intro p hp
    obtain ⟨b, hb, rfl⟩ := List.mem_map.mp hp
    obtain ⟨-, hne, hlength, -⟩ := h.sound b (hmem b hb).1
    exact ⟨hne, hlength⟩
  have hfull : ∀ p ∈ (own.map (·.actions)).dropLast, p.length = size := by
    intro p hp
    rw [← List.map_dropLast, hown] at hp
    obtain ⟨b, hb, rfl⟩ := List.mem_map.mp hp
    exact h.full k b hb
  have hcomplete : (own.map (·.actions)).flatten = actions.filter (·.partition = k) := by
    rw [← List.flatMap_def, hown]
    exact h.complete k
  rw [← hown, hsame, eq_pieces hsound hfull, hcomplete]

theorem Batching.unique {batches more : List Batch} (h : Batching table actions size batches)
    (h' : Batching table actions size more) : batches = more := by
  refine eq_of_filters (·.partition) (h.runs.trans h'.runs.symm) fun k => ?_
  rw [h.filter_eq, h'.filter_eq]

end

/-- The batches that row writes are cut into are the batching of them by that size, zero counting as one, and no other
    list of batches is. -/
theorem batching_iff (table : String) (actions : List BatchAction) (size : Nat) (batches : List Batch) :
    Batching table actions (max size 1) batches ↔ batches = chunkByPartition table actions size := by
  have hsize : 1 ≤ max size 1 := Nat.le_max_right size 1
  have hsame : chunkByPartition table actions (max size 1) = chunkByPartition table actions size := by
    simp only [chunkByPartition, pieces_max]
  rw [← hsame]
  constructor
  · intro h
    exact h.unique (batching_chunkByPartition hsize)
  · rintro rfl
    exact batching_chunkByPartition hsize

example :
    (chunkByPartition "t" (["p", "q", "p", "p", "q"].map fun k => ⟨.add, .bare ⟨k, "r"⟩⟩) 2).map
      (fun b => (b.partition, b.actions.length)) = [("p", 2), ("p", 1), ("q", 2)] := by
  decide +kernel

end TableMigrations
