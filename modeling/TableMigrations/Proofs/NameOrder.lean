/-
  TableMigrations.Proofs.NameOrder — the migrations of a directory, whatever order the directory lists them in.

  Names are compared as texts, and that is comparing their bytes: the bytes of a lower character are lower, whatever
  follows them (`utf8EncodeChar_lt`), so the first character that differs decides (`nameBytes_lt`). The names in a
  directory are different, so its migrations are strictly ordered by them, and there is one way to order them so:
  every listing of the same entries gives the same migrations (`discover_listing`).
-/
import Mathlib
import TableMigrations.Proofs.Discovery

namespace TableMigrations

/-! ## the bytes of a name -/

def nameBytes (name : String) : List UInt8 := name.toUTF8.data.toList

theorem nameBytes_eq (name : String) : nameBytes name = name.toList.flatMap String.utf8EncodeChar := by
  rw [nameBytes, String.toUTF8_eq_toByteArray, ← String.utf8Encode_toList, List.utf8Encode, List.data_toByteArray]

theorem toNat_byte {n : Nat} (h : n < 256) : (UInt8.ofNat n).toNat = n := UInt8.toNat_ofNat_of_lt' h

/-- Numbers are ordered as their digits in base 64, the highest first. -/
theorem digits_lt {v w : Nat} (h : v < w) :
    v / 262144 < w / 262144 ∨ v / 262144 = w / 262144 ∧ (v / 4096 % 64 < w / 4096 % 64 ∨
      v / 4096 % 64 = w / 4096 % 64 ∧ (v / 64 % 64 < w / 64 % 64 ∨ v / 64 % 64 = w / 64 % 64 ∧ v % 64 < w % 64)) := by
  omega

/-- A lower character has lower bytes, whatever follows them. -/
theorem utf8EncodeChar_lt {c d : Char} (h : c < d) (l m : List UInt8) :
    String.utf8EncodeChar c ++ l < String.utf8EncodeChar d ++ m := by
  have hlt : c.val.toNat < d.val.toNat := UInt32.lt_iff_toNat_lt.mp (Char.lt_def.mp h)
  have hsize : d.val.toNat < 1114112 := by
    have hvalid := d.valid
    simp only [UInt32.isValidChar, Nat.isValidChar] at hvalid
    omega
  simp only [String.utf8EncodeChar]
  generalize c.val.toNat = v at hlt
  generalize d.val.toNat = w at hlt hsize
  have hdigits := digits_lt hlt
  -- The highest digit has room for three bits, and no character needs more.
  have hv : v / 262144 % 8 = v / 262144 := by omega
  have hw : w / 262144 % 8 = w / 262144 := by omega
  split_ifs <;>
    simp (disch := omega) only [List.cons_append, List.nil_append, List.cons_lt_cons_iff, UInt8.lt_iff_toNat_lt,
      ← UInt8.toNat_inj, toNat_byte, hv, hw] <;>
    omega

theorem flatMap_utf8EncodeChar_lt {l m : List Char} (h : l < m) :
    l.flatMap String.utf8EncodeChar < m.flatMap String.utf8EncodeChar := by
  induction l generalizing m with
  | nil =>
    cases m with
    | nil => exact absurd h (List.not_lt_nil _)
    | cons d m =>
      obtain ⟨b, r, hd⟩ := List.exists_cons_of_ne_nil (String.utf8EncodeChar_ne_nil (c := d))
      rw [List.flatMap_nil, List.flatMap_cons, hd]
      exact List.nil_lt_cons b _
  | cons c l ih =>
    cases m with
    | nil => exact absurd h (List.not_lt_nil _)
    | cons d m =>
      rcases List.cons_lt_cons_iff.mp h with hlt | ⟨rfl, hlt⟩
      · exact utf8EncodeChar_lt hlt _ _
      · exact List.append_left_lt (ih hlt)

theorem nameBytes_lt {a b : String} (h : a < b) : nameBytes a < nameBytes b := by
  rw [nameBytes_eq, nameBytes_eq]
  exact flatMap_utf8EncodeChar_lt (String.lt_iff_toList_lt.mp h)

/-! ## a directory's migrations -/

theorem isLE_compare {a b : String} : (compare a b).isLE ↔ a ≤ b := Ordering.isLE_iff_ne_gt.trans compare_le_iff_le

/-- The migrations of a directory come in the order of their names, and no two have the same. -/
theorem sorted_migrationFiles (directory extension : String) {entries : List (String × Node)}
    (h : (entries.map (·.1)).Nodup) :
    (migrationFiles directory extension entries).Pairwise fun a b => a.name < b.name := by
  have hsorted : (migrationFiles directory extension entries).Pairwise fun a b => a.name ≤ b.name := by
    refine (List.pairwise_mergeSort ?_ ?_ _).imp isLE_compare.mp
    · intro a b c hab hbc
      exact isLE_compare.mpr (le_trans (isLE_compare.mp hab) (isLE_compare.mp hbc))
    · intro a b
      rw [Bool.or_eq_true, isLE_compare, isLE_compare]
      exact le_total a.name b.name
  have hdistinct := List.pairwise_map.mp (nodup_names_migrationFiles directory extension h)
  exact (hsorted.and hdistinct).imp fun hab => lt_of_le_of_ne hab.1 hab.2

theorem migrationFiles_perm {directory extension : String} {entries listed : List (String × Node)}
    (h : (entries.map (·.1)).Nodup) (hp : listed.Perm entries) :
    migrationFiles directory extension listed = migrationFiles directory extension entries := by
  refine List.Perm.eq_of_pairwise (fun a b _ _ hab hba => absurd hba (lt_asymm hab))
    (sorted_migrationFiles directory extension ((hp.map _).nodup_iff.mpr h))
    (sorted_migrationFiles directory extension h) ?_
  exact (List.mergeSort_perm _ _).trans ((hp.filterMap _).trans (List.mergeSort_perm _ _).symm)

/-- What the migrations of a directory are, given its entries. -/
structure Listing (directory extension : String) (entries : List (String × Node))
    (migrations : List MigrationFile) : Prop where
  /-- They are the regular files whose name ends in the extension and is longer than it. -/
  names : ∀ name, name ∈ migrations.map (·.name) ↔
    (∃ n, (name, Node.file n) ∈ entries) ∧ extension.toList <:+ name.toList ∧ extension.length < name.length
  /-- A name is the id with the extension after it, and says where the file is. -/
  parts : ∀ m ∈ migrations, m.id ++ extension = m.name ∧ m.path = joinPath directory m.name
  /-- Their names increase strictly, byte by byte. -/
  increasing : migrations.Pairwise fun a b => nameBytes a.name < nameBytes b.name
  ids : (migrations.map (·.id)).Nodup
  /-- No two of them share a row of the history. -/
  records : (migrations.map fun m => historyKey m.id).Nodup

theorem isSome_migrationId? {extension name : String} : (migrationId? extension name).isSome ↔
    extension.toList <:+ name.toList ∧ extension.length < name.length := by
  rw [← List.isSuffixOf_iff_suffix, ← String.length_toList, ← String.length_toList]
  simp only [migrationId?]
  split <;> simp_all

theorem listing_migrationFiles (directory extension : String) {entries : List (String × Node)}
    (h : (entries.map (·.1)).Nodup) :
    Listing directory extension entries (migrationFiles directory extension entries) where
  names name := by
    rw [List.mem_map, ← isSome_migrationId?, Option.isSome_iff_exists]
    constructor
    · rintro ⟨m, hm, rfl⟩
      obtain ⟨hfile, hparts, hid, -⟩ := mem_migrationFiles.mp hm
      exact ⟨hfile, m.id, migrationId?_eq_some_iff.mpr ⟨hparts.symm, hid⟩⟩
    · rintro ⟨hfile, id, hid⟩
      obtain ⟨rfl, hne⟩ := migrationId?_eq_some_iff.mp hid
      exact ⟨⟨id, _, joinPath directory (id ++ extension)⟩, mem_migrationFiles.mpr ⟨hfile, rfl, hne, rfl⟩, rfl⟩
  parts m hm := ⟨(mem_migrationFiles.mp hm).2.1, (mem_migrationFiles.mp hm).2.2.2⟩
  increasing := (sorted_migrationFiles directory extension h).imp nameBytes_lt
  ids := nodup_ids_migrationFiles directory extension h
  records := by
    have hids := nodup_ids_migrationFiles directory extension h
    have hrecords := List.Nodup.map (fun a b hab => congrArg RowKey.row hab : Function.Injective historyKey) hids
    rwa [List.map_map] at hrecords

/-- The same entries make the same migrations in whatever order they are listed. -/
theorem discover_listing (directory extension : String) {entries : List (String × Node)}
    (h : (entries.map (·.1)).Nodup) :
    ∃ migrations, Listing directory extension entries migrations ∧
      (∀ listed, listed.Perm entries → migrationFiles directory extension listed = migrations) ∧
      ∀ (t : FileTree) (listed : List (String × Node)), t.list directory = .ok listed → listed.Perm entries →
        discover t directory extension = .ok migrations := by
  refine ⟨_, listing_migrationFiles directory extension h, fun listed => migrationFiles_perm h, ?_⟩
  intro t listed hl hp
  rw [discover, hl, ← migrationFiles_perm h hp]

def mixedEntries : List (String × Node) :=
  [("old.mig", .directory), ("a.mig", .file 0), (".mig", .file 1), ("last.mig", .link "a.mig"), ("a-b.mig", .file 2)]

def mixedTree : FileTree :=
  ⟨.ofList ((["m"], .directory) :: mixedEntries.map fun e => (["m", e.1], e.2)), #[], []⟩

/-- By name, a-b.mig is before a.mig, though the id a is before a-b. -/
theorem discover_mixedTree : (mixedEntries.map (·.1)).Nodup ∧ ∃ migrations,
    discover mixedTree "m" ".mig" = .ok migrations ∧ Listing "m" ".mig" mixedEntries migrations ∧
      migrations.map (·.id) = ["a-b", "a"] := by
  have hnames : (mixedEntries.map (·.1)).Nodup := by decide +kernel
  obtain ⟨migrations, hlisting, -, htree⟩ := discover_listing "m" ".mig" hnames
  have hdiscover := htree mixedTree (mixedTree.nodes.entries.filterMap (FileTree.entryIn ["m"])) (by cbv)
    (by decide +kernel)
  have hm : discover mixedTree "m" ".mig" = .ok [⟨"a-b", "a-b.mig", "m/a-b.mig"⟩, ⟨"a", "a.mig", "m/a.mig"⟩] := by cbv
  obtain rfl := Except.ok.inj (hdiscover.symm.trans hm)
  exact ⟨hnames, _, hdiscover, hlisting, rfl⟩

end TableMigrations
