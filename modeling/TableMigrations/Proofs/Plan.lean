/-
  TableMigrations.Proofs.Plan — sorting into classes and cutting into pieces lose, add and reorder nothing.

  `classify` lists the keys in order of first appearance, each with its members in order (`classify_eq`), and `pieces`
  cuts a list without changing it (`flatten_pieces`). What a table's group and a partition's batches hold follows.
-/
import TableMigrations.Plan

namespace TableMigrations

section classify

variable {κ α : Type} [DecidableEq κ]

theorem fileUnder_map (f : κ → List α) (k : κ) (a : α) (keys : List κ) (hn : keys.Nodup) :
    fileUnder k a (keys.map fun j => (j, f j)) =
      (if k ∈ keys then keys else keys ++ [k]).map fun j =>
        (j, if j = k then (if k ∈ keys then f j else []) ++ [a] else f j) := by
  induction keys with
  | nil => simp [fileUnder]
  | cons j keys ih =>
    obtain ⟨hj, hk⟩ := List.nodup_cons.mp hn
    by_cases hjk : j = k
    · subst hjk
      have hne : ∀ i ∈ keys, i ≠ j := by
        intro i hi e
        exact hj (e ▸ hi)
      simp only [List.map_cons, fileUnder, if_true, List.mem_cons, true_or]
      congr 1
      apply List.map_congr_left
      intro i hi
      simp [hne i hi]
    · have hkj : k ≠ j := Ne.symm hjk
      simp only [List.map_cons, fileUnder, hjk, if_false, ih hk, List.mem_cons, hkj, false_or]
      split <;> simp [hjk]

theorem nodup_eraseDups (l : List κ) : l.eraseDups.Nodup := by
  induction h : l.length using Nat.strongRecOn generalizing l with
  | ind n ih =>
    cases l with
    | nil => simp
    | cons a l =>
      rw [List.eraseDups_cons, List.nodup_cons]
      constructor
      · intro hm
        simp [List.mem_eraseDups] at hm
      · have := List.length_filter_le (fun b => !b == a) l
        refine ih _ ?_ _ rfl
        rw [← h, List.length_cons]; omega

theorem eraseDups_concat (l : List κ) (k : κ) :
    (l ++ [k]).eraseDups = if k ∈ l then l.eraseDups else l.eraseDups ++ [k] := by
  rw [List.eraseDups_append]
  by_cases h : k ∈ l
  · have hnone : [k].removeAll l = [] := by simpa [List.removeAll] using h
    rw [if_pos h, hnone, List.eraseDups_nil, List.append_nil]
  · have hone : [k].removeAll l = [k] := by simpa [List.removeAll] using h
    rw [if_neg h, hone, List.eraseDups_cons, List.filter_nil, List.eraseDups_nil]

/-- The classes are those of the keys in order of first appearance, each with its members in order. -/
theorem classify_eq (key : α → κ) (l : List α) :
    classify key l = (l.map key).eraseDups.map fun k => (k, l.filter (key · = k)) := by
  induction h : l.length generalizing l with
  | zero => obtain rfl := List.eq_nil_of_length_eq_zero h; rfl
  | succ n ih =>
    obtain ⟨r, a, rfl⟩ : ∃ r a, l = r ++ [a] := by
      have hne : l ≠ [] := by rintro rfl; cases h
      exact ⟨l.dropLast, l.getLast hne, (List.dropLast_concat_getLast hne).symm⟩
    have hr : r.length = n := by simpa using h
    have hfold : classify key (r ++ [a]) = fileUnder (key a) a (classify key r) := by simp [classify]
    rw [hfold, ih r hr, fileUnder_map _ _ _ _ (nodup_eraseDups _), List.map_append, List.map_cons, List.map_nil,
      eraseDups_concat]
    simp only [List.mem_eraseDups]
    by_cases hm : key a ∈ r.map key
    · rw [if_pos hm]
      apply List.map_congr_left
      intro k _
      by_cases hk : k = key a
      · subst hk; simp [hm]
      · simp [hk, Ne.symm hk]
    · rw [if_neg hm]
      apply List.map_congr_left
      intro k hk
      by_cases hka : k = key a
      · subst hka
        have : r.filter (key · = key a) = [] := by
          rw [List.filter_eq_nil_iff]
          intro x hx he
          exact hm (List.mem_map.mpr ⟨x, hx, by simpa using he⟩)
        simp [hm, this]
      · simp [hka, Ne.symm hka]

theorem mem_classify {key : α → κ} {l : List α} {c : κ × List α} (h : c ∈ classify key l) :
    c.1 ∈ l.map key ∧ c.2 = l.filter (key · = c.1) := by
  rw [classify_eq] at h
  obtain ⟨k, hk, rfl⟩ := List.mem_map.mp h
  exact ⟨List.mem_eraseDups.mp hk, rfl⟩

theorem flatMap_single {β : Type} {keys : List κ} (hn : keys.Nodup) (k : κ) (part : List β) :
    (keys.flatMap fun j => if j = k then part else []) = if k ∈ keys then part else [] := by
  induction keys with
  | nil => rfl
  | cons j keys ih =>
    obtain ⟨hj, hk⟩ := List.nodup_cons.mp hn
    rw [List.flatMap_cons, ih hk]
    by_cases h : j = k
    · subst h
      simp [hj]
    · simp [h, Ne.symm h]

/-- Sorting into classes keeps, within one class, whatever is picked out of it in order. -/
theorem filter_flatMap_classify {key : α → κ} {p : α → Bool} (k : κ) (h : ∀ a, p a = true → key a = k) (l : List α) :
    ((classify key l).flatMap (·.2)).filter p = l.filter p := by
  have class_ (j : κ) : (l.filter (key · = j)).filter p = if j = k then l.filter p else [] := by
    rw [List.filter_filter]
    by_cases hj : j = k
    · subst hj
      rw [if_pos rfl]
      apply List.filter_congr
      intro a _
      rcases hp : p a with _ | _
      · rfl
      · simp [h a hp]
    · rw [if_neg hj, List.filter_eq_nil_iff]
      intro a _
      simp only [Bool.and_eq_true, decide_eq_true_eq, not_and]
      intro hp he
      exact hj (he ▸ h a hp)
  rw [classify_eq, List.flatMap_map, List.filter_flatMap]
  simp only [class_]
  rw [flatMap_single (nodup_eraseDups _)]
  by_cases hm : k ∈ (l.map key).eraseDups
  · rw [if_pos hm]
  · rw [if_neg hm, eq_comm, List.filter_eq_nil_iff]
    intro a ha he
    exact hm (List.mem_eraseDups.mpr (List.mem_map.mpr ⟨a, ha, h a he⟩))

theorem flatMap_fileUnder_perm (k : κ) (a : α) (classes : List (κ × List α)) :
    ((fileUnder k a classes).flatMap (·.2)).Perm (a :: classes.flatMap (·.2)) := by
  induction classes with
  | nil => exact .refl _
  | cons c r ih =>
    obtain ⟨j, as⟩ := c
    simp only [fileUnder]
    split
    · simp only [List.flatMap_cons, List.append_assoc, List.cons_append, List.nil_append]
      exact List.perm_middle
    · simp only [List.flatMap_cons]
      exact (ih.append_left as).trans List.perm_middle

theorem flatMap_classify_perm (key : α → κ) (l : List α) : ((classify key l).flatMap (·.2)).Perm l := by
  have fold : ∀ (r : List α) (classes : List (κ × List α)),
      ((r.foldl (fun classes a => fileUnder (key a) a classes) classes).flatMap (·.2)).Perm
        (classes.flatMap (·.2) ++ r) := by
    intro r
    induction r with
    | nil => intro classes; rw [List.append_nil]; exact .refl _
    | cons a r ih =>
      intro classes
      exact (ih _).trans (((flatMap_fileUnder_perm (key a) a classes).append_right r).trans List.perm_middle.symm)
  exact fold l []

end classify

/-! ## pieces -/

section pieces

variable {α : Type}

@[simp] theorem flatten_pieces (size : Nat) (l : List α) : (pieces size l).flatten = l := by
  fun_induction pieces size l with
  | case1 => rfl
  | case2 a l ih => rw [List.flatten_cons, ih, List.cons_append, List.take_append_drop]

theorem mem_pieces {size : Nat} {l p : List α} (h : p ∈ pieces size l) : p ≠ [] ∧ p.length ≤ max size 1 := by
  fun_induction pieces size l with
  | case1 => cases h
  | case2 a l ih =>
    rcases List.mem_cons.mp h with rfl | h
    · refine ⟨by simp, ?_⟩
      have := List.length_take_le (size - 1) l
      simp only [List.length_cons]; omega
    · exact ih h

theorem mem_of_mem_pieces {size : Nat} {l p : List α} (h : p ∈ pieces size l) {a : α} (ha : a ∈ p) : a ∈ l := by
  rw [← flatten_pieces size l]; exact List.mem_flatten.mpr ⟨p, h, ha⟩

/-- The first piece is full, unless it is the last. -/
theorem pieces_append {size : Nat} {p l : List α} (hp : p ≠ []) (hle : p.length ≤ size)
    (hfull : l ≠ [] → p.length = size) : pieces size (p ++ l) = p :: pieces size l := by
  obtain ⟨a, t, rfl⟩ := List.exists_cons_of_ne_nil hp
  rw [List.length_cons] at hle hfull
  rw [List.cons_append, pieces]
  by_cases hl : l = []
  · subst hl
    rw [List.append_nil, List.take_of_length_le (by omega), List.drop_of_length_le (by omega)]
  · have ht : t.length = size - 1 := by
      have := hfull hl
      omega
    rw [List.take_left' ht, List.drop_left' ht]

end pieces

/-! ## groups and batches -/

theorem groupByTable_eq (ops : List Operation) :
    groupByTable ops = (ops.map (·.table)).eraseDups.map fun t => ⟨t, ops.filter (·.table = t)⟩ := by
  rw [groupByTable, classify_eq, List.map_map]; rfl

/-- What the batches of a chunking hold: actions of the list, at least one and at most `size`, of one partition. -/
theorem mem_chunkByPartition {table : String} {actions : List BatchAction} {size : Nat} {b : Batch}
    (h : b ∈ chunkByPartition table actions size) :
    b.table = table ∧ b.actions ≠ [] ∧ b.actions.length ≤ max size 1 ∧
      ∀ a ∈ b.actions, a ∈ actions ∧ a.partition = b.partition := by
  obtain ⟨c, hc, hb⟩ := List.mem_flatMap.mp h
  obtain ⟨p, hp, rfl⟩ := List.mem_map.mp hb
  obtain ⟨-, hm⟩ := mem_classify hc
  obtain ⟨hne, hlen⟩ := mem_pieces hp
  refine ⟨rfl, hne, hlen, ?_⟩
  intro a ha
  have := mem_of_mem_pieces hp ha
  rw [hm, List.mem_filter] at this
  exact ⟨this.1, by simpa using this.2⟩

theorem flatMap_chunkByPartition (table : String) (actions : List BatchAction) (size : Nat) :
    (chunkByPartition table actions size).flatMap (·.actions) = (classify (·.partition) actions).flatMap (·.2) := by
  rw [chunkByPartition, List.flatMap_assoc]
  congr 1
  funext c
  rw [List.flatMap_def, List.map_map]
  show ((pieces size c.2).map id).flatten = c.2
  rw [List.map_id, flatten_pieces]

theorem perm_chunkByPartition (table : String) (actions : List BatchAction) (size : Nat) :
    ((chunkByPartition table actions size).flatMap (·.actions)).Perm actions := by
  rw [flatMap_chunkByPartition]; exact flatMap_classify_perm _ actions

theorem length_chunkByPartition_le (table : String) (actions : List BatchAction) (size : Nat) :
    (chunkByPartition table actions size).length ≤ actions.length := by
  rw [← (perm_chunkByPartition table actions size).length_eq, List.length_flatMap]
  have hpos : ∀ b ∈ chunkByPartition table actions size, 1 ≤ b.actions.length := by
    intro b hb
    exact List.length_pos_iff.mpr (mem_chunkByPartition hb).2.1
  revert hpos
  induction chunkByPartition table actions size with
  | nil => intro _; simp
  | cons b r ih =>
    intro hpos
    have := ih (fun b hb => hpos b (List.mem_cons_of_mem _ hb))
    have := hpos b List.mem_cons_self
    simp only [List.length_cons, List.map_cons, List.sum_cons]; omega

end TableMigrations
