/-
  TableMigrations.SortedMap — finite maps held as their entries in increasing key order.

  Tables, rows and properties are all listed by key (strings in the order of their UTF-8 bytes, which is the
  order of their code points), so the list of entries is the map: two maps with the same entries are equal,
  and a page of a table is a segment of the list.
-/

namespace TableMigrations

open Std

/-- A finite map; `entries` lists it by strictly increasing key. -/
structure SortedMap (κ α : Type) [Ord κ] where
  entries : List (κ × α)
  sorted : entries.Pairwise fun a b => compare a.1 b.1 = .lt
  deriving DecidableEq

namespace SortedMap

variable {κ α : Type} [Ord κ]

instance [Repr κ] [Repr α] : Repr (SortedMap κ α) := ⟨fun m n => reprPrec m.entries n⟩

def empty : SortedMap κ α := ⟨[], .nil⟩

instance : Inhabited (SortedMap κ α) := ⟨empty⟩

def keys (m : SortedMap κ α) : List κ := m.entries.map (·.1)

def values (m : SortedMap κ α) : List α := m.entries.map (·.2)

def size (m : SortedMap κ α) : Nat := m.entries.length

def get? (m : SortedMap κ α) (k : κ) : Option α := (m.entries.find? fun e => compare k e.1 == .eq).map (·.2)

def contains (m : SortedMap κ α) (k : κ) : Bool := (m.get? k).isSome

def filterKeys (m : SortedMap κ α) (p : κ → Bool) : SortedMap κ α := ⟨m.entries.filter (p ·.1), m.sorted.filter _⟩

def erase (m : SortedMap κ α) (k : κ) : SortedMap κ α := m.filterKeys fun j => compare k j != .eq

/-- The entries past a position: past nothing, all of them; past a key, those with a greater one. -/
def past (m : SortedMap κ α) : Option κ → List (κ × α)
  | none => m.entries
  | some k => m.entries.filter fun e => compare k e.1 == .lt

def startingAt (m : SortedMap κ α) (k : κ) : List (κ × α) := m.entries.filter fun e => compare k e.1 != .gt

/-! ## insertion -/

/-- Files `v` under `k`, in place of what `k` had. -/
def insertEntry (k : κ) (v : α) : List (κ × α) → List (κ × α)
  | [] => [(k, v)]
  | e :: r =>
    match compare k e.1 with
    | .lt => (k, v) :: e :: r
    | .eq => (k, v) :: r
    | .gt => e :: insertEntry k v r

theorem mem_insertEntry {k : κ} {v : α} {x : κ × α} {l : List (κ × α)} (h : x ∈ insertEntry k v l) :
    x = (k, v) ∨ x ∈ l := by
  induction l with
  | nil => simpa [insertEntry] using h
  | cons e r ih =>
    simp only [insertEntry] at h
    split at h
    · simpa using h
    · rcases List.mem_cons.1 h with h | h
      · exact .inl h
      · exact .inr (List.mem_cons_of_mem _ h)
    · rcases List.mem_cons.1 h with h | h
      · exact .inr (h ▸ List.mem_cons_self)
      · exact (ih h).imp_right (List.mem_cons_of_mem _)

theorem insertEntry_sorted [TransOrd κ] (k : κ) (v : α) {l : List (κ × α)}
    (h : l.Pairwise fun a b => compare a.1 b.1 = .lt) :
    (insertEntry k v l).Pairwise fun a b => compare a.1 b.1 = .lt := by
  induction l with
  | nil => simp [insertEntry]
  | cons e r ih =>
    obtain ⟨he, hr⟩ := List.pairwise_cons.1 h
    simp only [insertEntry]
    split
    next hk =>
      refine List.pairwise_cons.2 ⟨fun x hx => ?_, h⟩
      rcases List.mem_cons.1 hx with rfl | hx
      · exact hk
      · exact TransCmp.lt_trans hk (he x hx)
    next hk => exact List.pairwise_cons.2 ⟨fun x hx => TransCmp.lt_of_eq_of_lt hk (he x hx), hr⟩
    next hk =>
      refine List.pairwise_cons.2 ⟨fun x hx => ?_, ih hr⟩
      rcases mem_insertEntry hx with rfl | hx
      · exact OrientedCmp.lt_of_gt hk
      · exact he x hx

def insert [TransOrd κ] (m : SortedMap κ α) (k : κ) (v : α) : SortedMap κ α :=
  ⟨insertEntry k v m.entries, insertEntry_sorted k v m.sorted⟩

/-- Every entry of `other` is filed in `m`, in place of what its key had there. -/
def insertAll [TransOrd κ] (m other : SortedMap κ α) : SortedMap κ α :=
  other.entries.foldl (fun m e => m.insert e.1 e.2) m

/-- The map of a list of entries; of two with one key the later counts. -/
def ofList [TransOrd κ] (l : List (κ × α)) : SortedMap κ α := l.foldl (fun m e => m.insert e.1 e.2) empty

end SortedMap

end TableMigrations
