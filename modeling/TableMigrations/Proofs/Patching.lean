/-
  TableMigrations.Proofs.Patching — to patch a row is to merge the patch's properties into it.

  Merged as a row, set one after another, or sent to a store as an update of the whole patched row: the properties of a
  patch are written over those of a row with the same result (`Patch.overwrites_merge`), and what a patch makes of a row
  is that. It makes nothing of a row that has an agreeing value for each of its properties
  (`Patch.apply_eq_none_iff`). Values that agree need not be the same, and a value need not agree with itself: merging
  may then still put one zero in place of the other, and a patch that holds a not-a-number is never done with a row
  (`Patch.apply_merge_eq_none_iff`).
-/
import TableMigrations.Proofs.RowWrites

namespace TableMigrations

theorem Value.agrees_self_iff {v : Value} : v.agrees v = true ↔ v ≠ .double .nan := by
  constructor
  · rintro h rfl
    cases h
  · exact agrees_of_ne_nan

theorem Entity.foldl_set (row : Entity) (l : List (String × Value)) :
    l.foldl (fun e q => e.set q.1 q.2) row =
      { row with properties := l.foldl (fun m q => m.insert q.1 q.2) row.properties } := by
  induction l generalizing row with
  | nil => rfl
  | cons q r ih => exact ih (row.set q.1 q.2)

namespace Patch

/-- The row has the properties of the patch written over its own, however that is done: looked up, they come first;
    they are merged as those of a row with any key, or set one after another; and a store that has `row` puts just
    `row'` when it is sent that as an update. -/
structure Overwrites (p : Patch) (row row' : Entity) : Prop where
  key : row'.key = row.key
  lookup : ∀ name, row'.get? name = (p.properties.get? name).or (row.get? name)
  merged : ∀ k, row.merge ⟨k, p.properties⟩ = row'
  set : p.properties.entries.foldl (fun e q => e.set q.1 q.2) row = row'
  stored : ∀ table, BatchAction.resolve table ⟨.updateMerge, row'⟩ (some row) = .ok (.put row')

/-- The row has for each property of the patch a value that agrees. -/
def AgreesWith (p : Patch) (row : Entity) : Prop :=
  ∀ name v, p.properties.get? name = some v → ∃ w, row.get? name = some w ∧ w.agrees v = true

/-- The row differs from what it was only in values that agree, of the patch's properties. -/
structure Preserves (p : Patch) (row row' : Entity) : Prop where
  patched : ∀ name v, p.properties.get? name = some v →
    row'.get? name = some v ∧ ∃ w, row.get? name = some w ∧ w.agrees v = true
  others : ∀ name, p.properties.get? name = none → row'.get? name = row.get? name

variable (p : Patch) (row : Entity)

theorem overwrites_merge (k : RowKey) : p.Overwrites row (row.merge ⟨k, p.properties⟩) := by
  constructor
  case key => rfl
  case lookup => exact row.get?_merge ⟨k, p.properties⟩
  case merged =>
    intro _
    rfl
  case set => exact row.foldl_set p.properties.entries
  case stored =>
    intro table
    exact congrArg (Except.ok <| Write.put ·) (row.merge_merge ⟨k, p.properties⟩)

variable {p row}

theorem Overwrites.of_apply {row' : Entity} (h : p.apply row = some row') : p.Overwrites row row' := by
  have hmerge : row' = row.merge ⟨row.key, p.properties⟩ := Rows.eq_of_apply h
  rw [hmerge]
  exact p.overwrites_merge row row.key

theorem apply_eq_none_iff : p.apply row = none ↔ p.AgreesWith row := by
  have hall : (p.properties.entries.all fun q => (row.get? q.1).any (·.agrees q.2)) = true ↔ p.AgreesWith row := by
    simp only [List.all_eq_true, Prod.forall, ← SortedMap.get?_eq_some_iff, Option.any_eq_true, AgreesWith]
  rw [← hall, apply]
  split <;> simp_all

/-- Where a patch has nothing to do, merging it would change no value for one that does not agree. -/
theorem Overwrites.preserves {row' : Entity} (h : p.Overwrites row row') (ha : p.AgreesWith row) :
    p.Preserves row row' := by
  constructor
  case patched =>
    intro name v hv
    rw [h.lookup, hv]
    exact ⟨rfl, ha name v hv⟩
  case others =>
    intro name hn
    rw [h.lookup, hn, Option.none_or]

/-- A patch has nothing more to do in a row that it has been merged into, unless it holds a not-a-number. -/
theorem apply_merge_eq_none_iff (k : RowKey) :
    p.apply (row.merge ⟨k, p.properties⟩) = none ↔ ∀ name, p.properties.get? name ≠ some (.double .nan) := by
  have hget : ∀ {name v}, p.properties.get? name = some v → (row.merge ⟨k, p.properties⟩).get? name = some v := by
    intro name v hv
    rw [(p.overwrites_merge row k).lookup, hv, Option.some_or]
  rw [apply_eq_none_iff]
  constructor
  · intro h name hnan
    obtain ⟨w, hw, hagrees⟩ := h name _ hnan
    cases (hget hnan).symm.trans hw
    exact Value.agrees_self_iff.mp hagrees rfl
  · intro h name v hv
    refine ⟨v, hget hv, Value.agrees_self_iff.mpr ?_⟩
    rintro rfl
    exact h name hv

end Patch

/-- What a patch makes of a row is the row with its properties merged in. It makes nothing of a row just when the row
    has agreeing values for all of them, so that merging would change nothing that can be told by comparing; and nothing
    of a row that they are already merged into, just when none of them is a not-a-number. -/
theorem patch_merges (p : Patch) (row : Entity) :
    (∀ row', p.apply row = some row' → p.Overwrites row row') ∧
      (p.apply row = none ↔ p.AgreesWith row) ∧
      (p.apply row = none → ∀ k, p.Preserves row (row.merge ⟨k, p.properties⟩)) ∧
      ∀ k, p.apply (row.merge ⟨k, p.properties⟩) = none ↔ ∀ name, p.properties.get? name ≠ some (.double .nan) := by
  refine ⟨fun _ => .of_apply, Patch.apply_eq_none_iff, ?_, Patch.apply_merge_eq_none_iff⟩
  intro h k
  exact (p.overwrites_merge row k).preserves (Patch.apply_eq_none_iff.mp h)

def zeroRow : Entity := ⟨⟨"p", "r"⟩, .ofList [("n", .double (.ofCode true 0)), ("s", .string "x")]⟩

/-- A patch with another property is merged. One with the positive zero alone finds nothing to do, though merging it
    would put another zero there. One with a not-a-number finds something to do again and again. -/
theorem patch_merges_zeros :
    let mixed : Patch := ⟨.ofList [("n", .double .zero), ("b", .bool true)]⟩
    let merged : Entity := ⟨⟨"p", "r"⟩, .ofList [("b", .bool true), ("n", .double .zero), ("s", .string "x")]⟩
    let zero : Patch := ⟨.ofList [("n", .double .zero)]⟩
    let nan : Patch := ⟨.ofList [("n", .double .nan)]⟩
    mixed.apply zeroRow = some merged ∧ mixed.Overwrites zeroRow merged ∧
      zero.apply zeroRow = none ∧ zero.Preserves zeroRow (zeroRow.merge ⟨⟨"p", "r"⟩, zero.properties⟩) ∧
      zeroRow.merge ⟨⟨"p", "r"⟩, zero.properties⟩ ≠ zeroRow ∧
      nan.apply (zeroRow.merge ⟨⟨"p", "r"⟩, nan.properties⟩) ≠ none := by
  intro mixed merged zero nan
  have hmixed : mixed.apply zeroRow = some merged := by decide +kernel
  have hzero : zero.apply zeroRow = none := by decide +kernel
  refine ⟨hmixed, (patch_merges mixed zeroRow).1 merged hmixed, hzero, (patch_merges zero zeroRow).2.2.1 hzero _,
    by decide +kernel, ?_⟩
  intro hnan
  exact ((patch_merges nan zeroRow).2.2.2 _).mp hnan "n" (by decide +kernel)

end TableMigrations
