/-
  TableMigrations.Proofs.Discovery — the migrations of a directory have different ids.

  The names in a directory are different, since a tree lists every location once, and a file name is its id with the
  extension after it.
-/
import TableMigrations.Files.Discovery
import TableMigrations.Proofs.SortedMap

namespace TableMigrations

/-! ## names -/

namespace FileTree

theorem entryIn_eq_some {l : Location} {e : Location × Node} {x : String × Node} (h : entryIn l e = some x) :
    e.1 = l ++ [x.1] := by
  simp only [entryIn] at h
  split at h
  · split at h
    · rename_i he; cases h; exact he
    · cases h
  · cases h

theorem nodup_names {t : FileTree} {path : String} {entries : List (String × Node)} (h : t.list path = .ok entries) :
    (entries.map (·.1)).Nodup := by
  simp only [list] at h
  rcases hr : t.resolve .target path with e | l
  · simp only [hr] at h; cases h
  · simp only [hr] at h
    split at h
    · cases h
      rw [List.Nodup, List.pairwise_map, List.pairwise_filterMap]
      have hkeys : t.nodes.entries.Pairwise fun a b => a.1 ≠ b.1 := List.pairwise_map.mp t.nodes.nodup_keys
      refine hkeys.imp fun {a b} hab x hx y hy hxy => hab ?_
      rw [entryIn_eq_some hx, entryIn_eq_some hy, hxy]
    · cases h

end FileTree

/-! ## ids -/

/-- A migration's name is its id with the extension after it, and no id is empty. -/
theorem migrationId?_eq_some_iff {extension name id : String} :
    migrationId? extension name = some id ↔ name = id ++ extension ∧ id ≠ "" := by
  simp only [migrationId?]
  constructor
  · intro h
    split at h
    · rename_i hs
      obtain ⟨⟨front, hfront⟩, hshorter⟩ := And.imp_left List.isSuffixOf_iff_suffix.mp hs
      have hlength : name.toList.length - extension.toList.length = front.length := by
        rw [← hfront, List.length_append]; omega
      rw [hlength, ← hfront, List.take_left, Option.some_inj] at h
      subst h
      refine ⟨by rw [← String.toList_inj, String.toList_append, String.toList_ofList, hfront], fun hempty => ?_⟩
      rw [← String.toList_inj, String.toList_ofList] at hempty
      rw [← hfront, hempty] at hshorter
      exact absurd hshorter (by simp)
    · cases h
  · rintro ⟨rfl, hid⟩
    have hlength : 0 < id.toList.length := by
      rw [List.length_pos_iff, ne_eq, String.toList_eq_nil_iff]; exact hid
    have hs : extension.toList.isSuffixOf (id ++ extension).toList ∧
        extension.toList.length < (id ++ extension).toList.length := by
      rw [List.isSuffixOf_iff_suffix, String.toList_append, List.length_append]
      exact ⟨List.suffix_append _ _, by omega⟩
    rw [if_pos hs, Option.some_inj, ← String.toList_inj, String.toList_ofList, String.toList_append,
      List.length_append, Nat.add_sub_cancel, List.take_left]

/-- Migrations are the files that are named so; links and directories are none, whatever they are called. -/
theorem migrationFile?_eq_some_iff {directory extension name : String} {node : Node} {m : MigrationFile} :
    migrationFile? directory extension (name, node) = some m ↔
      (∃ n, node = .file n) ∧ m.id ++ extension = name ∧ m.id ≠ "" ∧ m.name = name ∧ m.path = joinPath directory name := by
  obtain ⟨id, called, path⟩ := m
  cases node with
  | file n =>
    simp only [migrationFile?, Option.map_eq_some_iff, migrationId?_eq_some_iff, MigrationFile.mk.injEq]
    constructor
    · rintro ⟨id, ⟨rfl, hid⟩, rfl, rfl, rfl⟩
      exact ⟨⟨n, rfl⟩, rfl, hid, rfl, rfl⟩
    · rintro ⟨-, rfl, hid, rfl, rfl⟩
      exact ⟨id, ⟨rfl, hid⟩, rfl, rfl, rfl⟩
  | directory => exact iff_of_false nofun nofun
  | link target => exact iff_of_false nofun nofun

/-- The migrations of a directory are its files that are named like one, each with its id and its path. -/
theorem mem_migrationFiles {directory extension : String} {entries : List (String × Node)} {m : MigrationFile} :
    m ∈ migrationFiles directory extension entries ↔
      (∃ n, (m.name, Node.file n) ∈ entries) ∧ m.id ++ extension = m.name ∧ m.id ≠ "" ∧
        m.path = joinPath directory m.name := by
  rw [migrationFiles, (List.mergeSort_perm _ _).mem_iff, List.mem_filterMap]
  constructor
  · rintro ⟨⟨name, node⟩, he, hm⟩
    obtain ⟨⟨n, rfl⟩, hparts, hid, rfl, hpath⟩ := migrationFile?_eq_some_iff.mp hm
    exact ⟨⟨n, he⟩, hparts, hid, hpath⟩
  · rintro ⟨⟨n, he⟩, hparts, hid, hpath⟩
    exact ⟨_, he, migrationFile?_eq_some_iff.mpr ⟨⟨n, rfl⟩, hparts, hid, rfl, hpath⟩⟩

theorem nodup_names_migrationFiles (directory extension : String) {entries : List (String × Node)}
    (h : (entries.map (·.1)).Nodup) : ((migrationFiles directory extension entries).map (·.name)).Nodup := by
  refine ((List.mergeSort_perm _ _).map MigrationFile.name).nodup_iff.mpr ?_
  rw [List.Nodup, List.pairwise_map, List.pairwise_filterMap]
  refine (List.pairwise_map.mp h).imp fun {a b} hab x hx y hy hxy => hab ?_
  obtain ⟨-, -, -, hname, -⟩ := migrationFile?_eq_some_iff.mp hx
  obtain ⟨-, -, -, hname', -⟩ := migrationFile?_eq_some_iff.mp hy
  rw [← hname, ← hname', hxy]

/-- Different names have different ids, as they all end in the extension. -/
theorem nodup_ids_migrationFiles (directory extension : String) {entries : List (String × Node)}
    (h : (entries.map (·.1)).Nodup) : ((migrationFiles directory extension entries).map (·.id)).Nodup := by
  have hnames : (migrationFiles directory extension entries).map (·.name) =
      ((migrationFiles directory extension entries).map (·.id)).map (· ++ extension) := by
    rw [List.map_map]
    exact List.map_congr_left fun m hm => (mem_migrationFiles.mp hm).2.1.symm
  have hnodup := nodup_names_migrationFiles directory extension h
  rw [hnames] at hnodup
  exact hnodup.of_map _

theorem nodup_ids {t : FileTree} {directory extension : String} {migrations : List MigrationFile}
    (h : discover t directory extension = .ok migrations) : (migrations.map (·.id)).Nodup := by
  simp only [discover] at h
  split at h
  · rename_i entries hl
    cases h
    exact nodup_ids_migrationFiles directory extension (FileTree.nodup_names hl)
  · cases h; exact .nil
  · cases h

theorem name_eq {t : FileTree} {directory extension : String} {migrations : List MigrationFile}
    (h : discover t directory extension = .ok migrations) {m : MigrationFile} (hm : m ∈ migrations) :
    m.name = m.id ++ extension := by
  simp only [discover] at h
  split at h
  · cases h
    exact (mem_migrationFiles.mp hm).2.1.symm
  · cases h; cases hm
  · cases h

theorem eq_of_id {migrations : List MigrationFile} (hn : (migrations.map (·.id)).Nodup) {m f : MigrationFile}
    (hm : m ∈ migrations) (hf : f ∈ migrations) (h : m.id = f.id) : m = f := by
  induction migrations with
  | nil => cases hm
  | cons x r ih =>
    obtain ⟨hx, hr⟩ := List.nodup_cons.mp hn
    rcases List.mem_cons.mp hm with rfl | hm'
    · rcases List.mem_cons.mp hf with rfl | hf'
      · rfl
      · exact absurd (List.mem_map.mpr ⟨f, hf', h.symm⟩) hx
    · rcases List.mem_cons.mp hf with rfl | hf'
      · exact absurd (List.mem_map.mpr ⟨m, hm', h⟩) hx
      · exact ih hr hm' hf'

end TableMigrations
