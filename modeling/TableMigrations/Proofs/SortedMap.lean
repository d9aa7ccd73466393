/-
  TableMigrations.Proofs.SortedMap — what the operations on sorted maps do to the entries and to the lookup.

  The entries decide the lookup (`get?_eq_some_iff`) and the lookup decides the map (`ext_get?`), so equations between
  maps are proved key by key. Where a map is worked through in key order, its entries are cut at a position instead:
  `insert_cut` and `past_cut` say what writing at the cut and reading past it give.
-/
import Mathlib
import TableMigrations.SortedMap

namespace TableMigrations

open Std

theorem filter_eq_singleton {ι α : Type} [DecidableEq ι] (key : α → ι) {l : List α} (h : (l.map key).Nodup) {a : α}
    (ha : a ∈ l) : l.filter (key · = key a) = [a] := by
  induction l with
  | nil => cases ha
  | cons b r ih =>
    obtain ⟨hb, hr⟩ := List.nodup_cons.mp h
    rcases List.mem_cons.mp ha with rfl | ha
    · have hnone : r.filter (key · = key a) = [] := by
        rw [List.filter_eq_nil_iff]
        intro x hx he
        exact hb (List.mem_map.mpr ⟨x, hx, of_decide_eq_true he⟩)
      rw [List.filter_cons_of_pos (by simp), hnone]
    · have hne : key b ≠ key a := fun he => hb (List.mem_map.mpr ⟨a, ha, he.symm⟩)
      rw [List.filter_cons_of_neg (by simp [hne]), ih hr ha]

/-- Where what follows a member without the property has it neither, the members that have it come first. -/
theorem takeWhile_eq_filter {α : Type} {p : α → Bool} {l : List α} (h : l.Pairwise fun a b => p b = true → p a = true) :
    l.takeWhile p = l.filter p := by
  induction l with
  | nil => rfl
  | cons a r ih =>
    obtain ⟨ha, hr⟩ := List.pairwise_cons.mp h
    by_cases hp : p a = true
    · rw [List.takeWhile_cons_of_pos hp, List.filter_cons_of_pos hp, ih hr]
    · rw [List.takeWhile_cons_of_neg hp, List.filter_cons_of_neg hp, List.filter_eq_nil_iff.mpr]
      exact fun b hb hpb => hp (ha b hb hpb)

namespace SortedMap

variable {κ α β : Type} [Ord κ]

theorem ext_entries {m n : SortedMap κ α} (h : m.entries = n.entries) : m = n := by
  cases m; cases n; cases h; rfl

/-! ## lookup and entries -/

@[simp] theorem get?_empty (k : κ) : (empty : SortedMap κ α).get? k = none := rfl

@[simp] theorem contains_eq (m : SortedMap κ α) (k : κ) : m.contains k = (m.get? k).isSome := rfl

theorem filterKeys_eq_self {m : SortedMap κ α} {p : κ → Bool} (h : ∀ e ∈ m.entries, p e.1 = true) :
    m.filterKeys p = m :=
  ext_entries (List.filter_eq_self.mpr h)

/-! ## sizes -/

theorem length_insertEntry (k : κ) (v : α) (l : List (κ × α)) : (insertEntry k v l).length ≤ l.length + 1 := by
  induction l with
  | nil => simp [insertEntry]
  | cons e r ih =>
    simp only [insertEntry]
    split <;> simp only [List.length_cons] <;> omega

theorem size_insert_le [TransOrd κ] (m : SortedMap κ α) (k : κ) (v : α) : (m.insert k v).size ≤ m.size + 1 :=
  length_insertEntry k v m.entries

theorem size_erase_le (m : SortedMap κ α) (k : κ) : (m.erase k).size ≤ m.size := List.length_filter_le _ _

theorem sum_erase_le (m : SortedMap κ α) (k : κ) (f : α → Nat) :
    ((m.erase k).values.map f).sum ≤ (m.values.map f).sum := by
  simp only [values, erase, filterKeys, List.map_map]
  induction m.entries with
  | nil => simp
  | cons e r ih =>
    rw [List.filter_cons]
    split <;> simp only [List.map_cons, List.sum_cons] <;> omega

def mapValues (m : SortedMap κ α) (f : κ → α → β) : SortedMap κ β :=
  ⟨m.entries.map fun e => (e.1, f e.1 e.2), List.pairwise_map.mpr m.sorted⟩

@[simp] theorem size_mapValues (m : SortedMap κ α) (f : κ → α → β) : (m.mapValues f).size = m.size := List.length_map _

theorem mapValues_filterKeys (m : SortedMap κ α) (f : κ → α → β) (p : κ → Bool) :
    (m.filterKeys p).mapValues f = (m.mapValues f).filterKeys p := by
  apply ext_entries
  show (m.entries.filter _).map _ = (m.entries.map _).filter _
  rw [List.filter_map]
  rfl

theorem mapValues_erase (m : SortedMap κ α) (f : κ → α → β) (k : κ) :
    (m.erase k).mapValues f = (m.mapValues f).erase k := m.mapValues_filterKeys f _

variable [TransOrd κ]

theorem ne_of_lt {j k : κ} (h : compare j k = .lt) : j ≠ k := by
  intro he
  subst he; simp [ReflOrd.compare_self] at h

theorem lt_irrefl {k : κ} : compare k k ≠ .lt := fun h => ne_of_lt h rfl

theorem nodup_keys (m : SortedMap κ α) : m.keys.Nodup :=
  List.pairwise_map.mpr (m.sorted.imp fun hab => ne_of_lt hab)

/-! ## sums over the values -/

theorem sum_insertEntry (k : κ) (v : α) (f : α → Nat) (l : List (κ × α))
    (hl : l.Pairwise fun a b => compare a.1 b.1 = .lt) :
    ((insertEntry k v l).map fun e => f e.2).sum + (((⟨l, hl⟩ : SortedMap κ α).get? k).map f).getD 0 =
      (l.map fun e => f e.2).sum + f v := by
  induction l with
  | nil => simp [insertEntry, get?]
  | cons e r ih =>
    obtain ⟨he, hr⟩ := List.pairwise_cons.mp hl
    have ih := ih hr
    simp only [get?, List.find?_cons, insertEntry] at ih ⊢
    split
    · rename_i hk
      have hn : r.find? (fun x => compare k x.1 == .eq) = none := by
        rw [List.find?_eq_none]
        intro x hx
        simp [TransCmp.lt_trans hk (he x hx)]
      simp only [hk, hn, List.map_cons, List.sum_cons]
      simp; omega
    · rename_i hk
      simp only [hk, List.map_cons, List.sum_cons]
      simp; omega
    · rename_i hk
      simp only [hk, List.map_cons, List.sum_cons]
      simp only [show (Ordering.gt == Ordering.eq) = false from rfl]
      omega

theorem sum_insert (m : SortedMap κ α) (k : κ) (v : α) (f : α → Nat) :
    ((m.insert k v).values.map f).sum + ((m.get? k).map f).getD 0 = (m.values.map f).sum + f v := by
  simp only [values, List.map_map]
  exact sum_insertEntry k v f m.entries m.sorted

/-! ## what decides the lookup -/

/-- Two lists in strictly increasing key order with the same members are the same. -/
theorem eq_of_mem_iff {l r : List (κ × α)} (hl : l.Pairwise fun a b => compare a.1 b.1 = .lt)
    (hr : r.Pairwise fun a b => compare a.1 b.1 = .lt) (h : ∀ e, e ∈ l ↔ e ∈ r) : l = r := by
  have nodup : ∀ {s : List (κ × α)}, (s.Pairwise fun a b => compare a.1 b.1 = .lt) → s.Nodup := by
    intro s hs
    refine hs.imp ?_
    intro a b hab he
    exact ne_of_lt hab (congrArg Prod.fst he)
  refine ((List.perm_ext_iff_of_nodup (nodup hl) (nodup hr)).mpr h).eq_of_pairwise ?_ hl hr
  intro a b _ _ hab hba
  exact absurd (TransCmp.lt_trans hab hba) lt_irrefl

variable [LawfulEqOrd κ]

theorem get?_eq_some_iff {m : SortedMap κ α} {k : κ} {v : α} : m.get? k = some v ↔ (k, v) ∈ m.entries := by
  obtain ⟨l, hl⟩ := m
  simp only [get?]
  induction l with
  | nil => simp
  | cons e r ih =>
    obtain ⟨he, hr⟩ := List.pairwise_cons.mp hl
    simp only [List.find?_cons, List.mem_cons]
    by_cases hk : k = e.1
    · subst hk
      have hn : (e.1, v) ∉ r := fun hm => ne_of_lt (he _ hm) rfl
      simp [ReflOrd.compare_self, hn, Prod.ext_iff, eq_comm]
    · have hne : (k, v) ≠ e := fun h => hk (by rw [← h])
      have hb : (compare k e.1 == .eq) = false := by simpa using hk
      simp only [hb, hne, false_or]
      exact ih hr

theorem mem_keys_iff {m : SortedMap κ α} {k : κ} : k ∈ m.keys ↔ ∃ v, m.get? k = some v := by
  simp only [keys, List.mem_map, get?_eq_some_iff]
  constructor
  · rintro ⟨⟨_, v⟩, hm, rfl⟩
    exact ⟨v, hm⟩
  · rintro ⟨v, hm⟩
    exact ⟨(k, v), hm, rfl⟩

theorem ext_get? {m n : SortedMap κ α} (h : ∀ k, m.get? k = n.get? k) : m = n := by
  apply ext_entries
  apply eq_of_mem_iff m.sorted n.sorted
  intro e
  rw [← get?_eq_some_iff, ← get?_eq_some_iff, h]

/-! ## insertion and removal -/

theorem mem_insertEntry_iff {k : κ} {v : α} {x : κ × α} {l : List (κ × α)}
    (hl : l.Pairwise fun a b => compare a.1 b.1 = .lt) :
    x ∈ insertEntry k v l ↔ x = (k, v) ∨ (x ∈ l ∧ x.1 ≠ k) := by
  induction l with
  | nil => simp [insertEntry]
  | cons e r ih =>
    obtain ⟨he, hr⟩ := List.pairwise_cons.mp hl
    simp only [insertEntry]
    split
    · rename_i hk
      have hn : ∀ y ∈ e :: r, y.1 ≠ k := by
        intro y hy
        rcases List.mem_cons.mp hy with rfl | hy
        · exact (ne_of_lt hk).symm
        · exact (ne_of_lt (TransCmp.lt_trans hk (he y hy))).symm
      constructor
      · intro hx
        rcases List.mem_cons.mp hx with hx | hx
        · exact Or.inl hx
        · exact Or.inr ⟨hx, hn x hx⟩
      · rintro (rfl | ⟨hx, -⟩)
        · exact List.mem_cons_self
        · exact List.mem_cons_of_mem _ hx
    · rename_i hk
      obtain rfl := LawfulEqOrd.eq_of_compare hk
      simp only [List.mem_cons]
      constructor
      · rintro (hx | hx)
        · exact Or.inl hx
        · exact Or.inr ⟨Or.inr hx, (ne_of_lt (he x hx)).symm⟩
      · rintro (hx | ⟨rfl | hx, hne⟩)
        · exact Or.inl hx
        · exact absurd rfl hne
        · exact Or.inr hx
    · rename_i hk
      have hek : e.1 ≠ k := ne_of_lt (OrientedCmp.lt_of_gt hk)
      simp only [List.mem_cons, ih hr]
      constructor
      · rintro (rfl | rfl | ⟨hx, hne⟩)
        · exact Or.inr ⟨Or.inl rfl, hek⟩
        · exact Or.inl rfl
        · exact Or.inr ⟨Or.inr hx, hne⟩
      · rintro (rfl | ⟨rfl | hx, hne⟩)
        · exact Or.inr (Or.inl rfl)
        · exact Or.inl rfl
        · exact Or.inr (Or.inr ⟨hx, hne⟩)

theorem get?_insert_self (m : SortedMap κ α) (k : κ) (v : α) : (m.insert k v).get? k = some v :=
  get?_eq_some_iff.mpr ((mem_insertEntry_iff m.sorted).mpr (Or.inl rfl))

theorem get?_insert_ne (m : SortedMap κ α) {j k : κ} (v : α) (h : j ≠ k) : (m.insert k v).get? j = m.get? j := by
  apply Option.ext
  intro w
  show (m.insert k v).get? j = some w ↔ m.get? j = some w
  rw [get?_eq_some_iff, get?_eq_some_iff]
  refine (mem_insertEntry_iff m.sorted).trans ?_
  constructor
  · rintro (he | ⟨hm, -⟩)
    · exact absurd (congrArg Prod.fst he) h
    · exact hm
  · intro hm
    exact Or.inr ⟨hm, h⟩

theorem get?_insert [DecidableEq κ] (m : SortedMap κ α) (k j : κ) (v : α) :
    (m.insert k v).get? j = if j = k then some v else m.get? j := by
  by_cases h : j = k
  · subst h; rw [if_pos rfl]; exact get?_insert_self m _ v
  · rw [if_neg h]; exact get?_insert_ne m v h

theorem insert_comm (m : SortedMap κ α) {j k : κ} (h : j ≠ k) (v w : α) :
    (m.insert j v).insert k w = (m.insert k w).insert j v := by
  apply ext_get?
  intro i
  by_cases hk : i = k
  · subst hk; rw [get?_insert_self, get?_insert_ne _ _ h.symm, get?_insert_self]
  · rw [get?_insert_ne _ _ hk]
    by_cases hj : i = j
    · subst hj; rw [get?_insert_self, get?_insert_self]
    · rw [get?_insert_ne _ _ hj, get?_insert_ne _ _ hj, get?_insert_ne _ _ hk]

theorem get?_filterKeys (m : SortedMap κ α) (p : κ → Bool) (k : κ) :
    (m.filterKeys p).get? k = if p k then m.get? k else none := by
  apply Option.ext
  intro w
  show (m.filterKeys p).get? k = some w ↔ (if p k = true then m.get? k else none) = some w
  rw [get?_eq_some_iff]
  show (k, w) ∈ m.entries.filter (p ·.1) ↔ _
  rw [List.mem_filter]
  by_cases hp : p k = true
  · simp [hp, get?_eq_some_iff]
  · simp [hp]

theorem filterKeys_insert (m : SortedMap κ α) (p : κ → Bool) (k : κ) (v : α) :
    (m.insert k v).filterKeys p = if p k then (m.filterKeys p).insert k v else m.filterKeys p := by
  apply ext_get?
  intro j
  rw [get?_filterKeys]
  by_cases hj : j = k
  · subst hj
    rw [get?_insert_self]
    split
    · rw [get?_insert_self]
    · rename_i hp
      rw [get?_filterKeys, if_neg hp]
  · rw [get?_insert_ne _ _ hj, ← get?_filterKeys]
    split
    · rw [get?_insert_ne _ _ hj]
    · rfl

theorem get?_erase_self (m : SortedMap κ α) (k : κ) : (m.erase k).get? k = none := by
  simp [erase, get?_filterKeys, ReflOrd.compare_self]

theorem get?_erase_ne (m : SortedMap κ α) {j k : κ} (h : j ≠ k) : (m.erase k).get? j = m.get? j := by
  have hb : (compare k j != .eq) = true := by simpa using Ne.symm h
  simp only [erase, get?_filterKeys, hb, if_true]

theorem insert_insert (m : SortedMap κ α) (k : κ) (v w : α) : (m.insert k v).insert k w = m.insert k w := by
  apply ext_get?
  intro i
  by_cases hi : i = k
  · subst hi; rw [get?_insert_self, get?_insert_self]
  · rw [get?_insert_ne _ _ hi, get?_insert_ne _ _ hi, get?_insert_ne _ _ hi]

/-! ## at a cut -/

theorem insertEntry_cut {k : κ} {v w : α} {l r : List (κ × α)}
    (h : (l ++ (k, v) :: r).Pairwise fun a b => compare a.1 b.1 = .lt) :
    insertEntry k w (l ++ (k, v) :: r) = l ++ (k, w) :: r := by
  induction l with
  | nil => simp [insertEntry, ReflOrd.compare_self]
  | cons e l ih =>
    obtain ⟨he, hl⟩ := List.pairwise_cons.mp h
    have hek : compare k e.1 = .gt := OrientedCmp.gt_of_lt (he (k, v) (by simp))
    simp only [List.cons_append, insertEntry, hek, ih hl]

/-- Writing at a cut changes the entry there and no other. -/
theorem insert_cut {m : SortedMap κ α} {k : κ} {v : α} {l r : List (κ × α)} (h : m.entries = l ++ (k, v) :: r) (w : α) :
    (m.insert k w).entries = l ++ (k, w) :: r := by
  have hs := m.sorted
  rw [h] at hs
  show insertEntry k w m.entries = _
  rw [h]; exact insertEntry_cut hs

theorem get?_cut {m : SortedMap κ α} {k : κ} {v : α} {l r : List (κ × α)} (h : m.entries = l ++ (k, v) :: r) :
    m.get? k = some v :=
  get?_eq_some_iff.mpr (by simp [h])

/-- What lies past the last key before a cut is what comes after the cut. -/
theorem past_cut {m : SortedMap κ α} {e : κ × α} {l r : List (κ × α)} (h : m.entries = l ++ e :: r) :
    m.past (some e.1) = r := by
  have hs := m.sorted
  rw [h, List.pairwise_append, List.pairwise_cons] at hs
  obtain ⟨-, ⟨hr, -⟩, hl⟩ := hs
  have before : ∀ x ∈ l, (compare e.1 x.1 == .lt) = false := by
    intro x hx
    have := OrientedCmp.gt_of_lt (hl x hx e List.mem_cons_self)
    simp [this]
  have after : ∀ x ∈ r, (compare e.1 x.1 == .lt) = true := by
    intro x hx
    simp [hr x hx]
  have here : (compare e.1 e.1 == .lt) = false := by simp [ReflOrd.compare_self]
  simp only [past, h, List.filter_append, List.filter_cons, here]
  rw [List.filter_eq_nil_iff.mpr (fun x hx => by simp [before x hx]), List.filter_eq_self.mpr after]
  simp

/-! ## every value -/

theorem get?_mapValues (m : SortedMap κ α) (f : κ → α → β) (k : κ) :
    (m.mapValues f).get? k = (m.get? k).map (f k) := by
  apply Option.ext
  intro w
  show (m.mapValues f).get? k = some w ↔ (m.get? k).map (f k) = some w
  rw [get?_eq_some_iff, Option.map_eq_some_iff]
  simp only [mapValues, List.mem_map, Prod.mk.injEq, Prod.exists, get?_eq_some_iff]
  constructor
  · rintro ⟨j, v, hm, rfl, rfl⟩; exact ⟨v, hm, rfl⟩
  · rintro ⟨v, hm, rfl⟩; exact ⟨k, v, hm, rfl, rfl⟩

theorem mapValues_insert (m : SortedMap κ α) (f : κ → α → β) (k : κ) (v : α) :
    (m.insert k v).mapValues f = (m.mapValues f).insert k (f k v) := by
  apply ext_get?
  intro j
  rw [get?_mapValues]
  by_cases hj : j = k
  · subst hj
    rw [get?_insert_self, get?_insert_self]
    rfl
  · rw [get?_insert_ne _ _ hj, get?_insert_ne _ _ hj, get?_mapValues]

/-! ## writing one map over another -/

theorem get?_foldl_insert (l : List (κ × α)) (hl : l.Pairwise fun a b => compare a.1 b.1 = .lt) (m : SortedMap κ α)
    (k : κ) :
    (l.foldl (fun m e => m.insert e.1 e.2) m).get? k = ((⟨l, hl⟩ : SortedMap κ α).get? k).or (m.get? k) := by
  induction l generalizing m with
  | nil => rfl
  | cons e r ih =>
    obtain ⟨he, hr⟩ := List.pairwise_cons.mp hl
    rw [List.foldl_cons, ih hr]
    simp only [get?, List.find?_cons]
    by_cases hk : k = e.1
    · subst hk
      have hn : r.find? (fun x => compare e.1 x.1 == .eq) = none := by
        rw [List.find?_eq_none]
        intro x hx
        simp [he x hx]
      have hi := get?_insert_self m e.1 e.2
      simp only [get?] at hi
      simp [hn, hi, ReflOrd.compare_self]
    · have hb : (compare k e.1 == .eq) = false := by simpa using hk
      have hi := get?_insert_ne m e.2 hk
      simp only [get?] at hi
      simp only [hb, hi]

/-- What is written over `m` is what `n` has, and `m` keeps the rest. -/
theorem get?_insertAll (m n : SortedMap κ α) (k : κ) : (m.insertAll n).get? k = (n.get? k).or (m.get? k) :=
  get?_foldl_insert n.entries n.sorted m k

theorem ofList_entries (m : SortedMap κ α) : ofList m.entries = m := by
  apply ext_get?
  intro k
  show (empty.insertAll m).get? k = m.get? k
  rw [get?_insertAll, get?_empty, Option.or_none]

theorem insertAll_insert (m n : SortedMap κ α) (k : κ) (v : α) :
    m.insertAll (n.insert k v) = (m.insertAll n).insert k v := by
  apply ext_get?
  intro j
  by_cases hj : j = k
  · subst hj; rw [get?_insertAll, get?_insert_self, get?_insert_self]; rfl
  · rw [get?_insertAll, get?_insert_ne _ _ hj, get?_insert_ne _ _ hj, get?_insertAll]

theorem insertAll_erase (m n : SortedMap κ α) {k : κ} (h : m.get? k = none) :
    m.insertAll (n.erase k) = (m.insertAll n).erase k := by
  apply ext_get?
  intro j
  by_cases hj : j = k
  · subst hj; rw [get?_insertAll, get?_erase_self, get?_erase_self, h]; rfl
  · rw [get?_insertAll, get?_erase_ne _ hj, get?_erase_ne _ hj, get?_insertAll]

/-- A part of a map that is written over the rest gives the map. -/
theorem insertAll_filterKeys {p q : κ → Bool} (h : ∀ k, p k = !q k) (m : SortedMap κ α) :
    (m.filterKeys p).insertAll (m.filterKeys q) = m := by
  apply ext_get?
  intro k
  rw [get?_insertAll, get?_filterKeys, get?_filterKeys, h k]
  cases q k <;> cases m.get? k <;> rfl

theorem insertAll_insertAll (m n : SortedMap κ α) : m.insertAll (m.insertAll n) = m.insertAll n := by
  apply ext_get?
  intro k
  simp only [get?_insertAll]
  cases n.get? k <;> cases m.get? k <;> rfl

end SortedMap

end TableMigrations
