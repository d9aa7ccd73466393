/-
  TableMigrations.Proofs.Streaming — a patch of a whole table goes through every row exactly once.

  The pages of a scan hand out the table's rows as they were before it, in order (`scan_path`), although the table is
  written in between: what is written lies before the position that the next page is asked from. Keys being distinct,
  each row so belongs to one turn, and the batches of that turn write it once if the patch changes it and never else
  (`PagedThrough.streamed`). A patch without a not-a-number leaves a row that it has been applied to as it is
  (`apply_patchRow`), so that doing it again writes nothing.
-/
import TableMigrations.Proofs.Execution
import TableMigrations.Proofs.Patching

namespace TableMigrations

open Execution

/-! ## applying a patch again -/

/-- A patch without a not-a-number has nothing to do in a row that it has been applied to. -/
theorem Patch.apply_patchRow {patch : Patch} (h : ∀ p ∈ patch.properties.entries, p.2 ≠ .double .nan) (row : Entity) :
    patch.apply (Rows.patchRow patch row) = none := by
  rcases hr : patch.apply row with _ | row'
  · rw [Rows.patchRow, hr]
    exact hr
  · have hpatched : Rows.patchRow patch row = row' := by rw [Rows.patchRow, hr]; rfl
    rw [hpatched, ← (Overwrites.of_apply hr).merged row.key, apply_merge_eq_none_iff]
    intro name hnan
    exact h _ (SortedMap.get?_eq_some_iff.mp hnan) rfl

/-! ## rows and turns -/

theorem map_key_values {rows : Rows} (h : Rows.WellFiled rows) : rows.values.map (·.key) = rows.keys := by
  rw [SortedMap.values, SortedMap.keys, List.map_map]
  exact List.map_congr_left fun x hx => h.key_of_mem hx

theorem key_of_apply {patch : Patch} {row row' : Entity} (h : patch.apply row = some row') : row'.key = row.key := by
  rw [Rows.eq_of_apply h]

theorem mem_patches {patch : Patch} {rows : List Entity} {a : BatchAction} :
    a ∈ patches patch rows ↔ ∃ row ∈ rows, patch.apply row = some a.entity ∧ a.kind = .updateMerge := by
  simp only [patches, List.mem_map, List.mem_filterMap]
  constructor
  · rintro ⟨row', ⟨row, hrow, happly⟩, rfl⟩
    exact ⟨row, hrow, happly, rfl⟩
  · rintro ⟨row, hrow, happly, hkind⟩
    exact ⟨a.entity, ⟨row, hrow, happly⟩, by rw [← hkind]⟩

theorem filter_key_patches (patch : Patch) (k : RowKey) (rows : List Entity) :
    (patches patch rows).filter (·.entity.key = k) = patches patch (rows.filter (·.key = k)) := by
  induction rows with
  | nil => rfl
  | cons row r ih =>
    rcases happly : patch.apply row with _ | row'
    · have hskip : ∀ l, patches patch (row :: l) = patches patch l := by
        intro l
        rw [patches, List.filterMap_cons_none happly, patches]
      rw [hskip, ih, List.filter_cons]
      split_ifs
      · rw [hskip]
      · rfl
    · have hsend : ∀ l, patches patch (row :: l) = ⟨.updateMerge, row'⟩ :: patches patch l := by
        intro l
        rw [patches, List.filterMap_cons_some happly, List.map_cons, patches]
      rw [hsend, List.filter_cons, List.filter_cons, key_of_apply happly, ih]
      split_ifs
      · rw [hsend]
      · rfl

/-- The patches of a row's key among those of rows with distinct keys: the row's, if the patch changes it. -/
theorem filter_patches (patch : Patch) {rows : List Entity} (hn : (rows.map (·.key)).Nodup) {row : Entity}
    (hrow : row ∈ rows) :
    (patches patch rows).filter (·.entity.key = row.key) = (patch.apply row).toList.map (⟨.updateMerge, ·⟩) := by
  rw [filter_key_patches, filter_eq_singleton (·.key) hn hrow, patches, List.filterMap_cons]
  cases patch.apply row <;> rfl

/-- What turns do with a table's rows. Each row comes with one turn, and that turn writes it once if the patch changes
    it and not at all else; no other turn has to do with its key. -/
structure Streamed (patch : Patch) (rows : Rows) (turns : List PageTurn) : Prop where
  pages : turns.flatMap (·.rows) = rows.values
  once : ∀ row ∈ rows.values, ∃ front turn back, turns = front ++ turn :: back ∧
    turn.rows.filter (·.key = row.key) = [row] ∧
    turn.actions.filter (·.entity.key = row.key) = (patch.apply row).toList.map (⟨.updateMerge, ·⟩) ∧
    ∀ other ∈ front ++ back,
      (∀ row' ∈ other.rows, row'.key ≠ row.key) ∧ ∀ a ∈ other.actions, a.entity.key ≠ row.key
  only : ∀ turn ∈ turns, ∀ a ∈ turn.actions,
    ∃ row ∈ turn.rows, patch.apply row = some a.entity ∧ a.kind = .updateMerge

namespace Execution.PagedThrough

variable {limits : Limits} {table : String} {size : Nat} {patch : Patch} {s after : MemoryStore}
  {turns : List PageTurn}

theorem batches_of_mem (h : PagedThrough limits table size patch s turns after) {turn : PageTurn} (ht : turn ∈ turns) :
    turn.batches = chunkByPartition table (patches patch turn.rows) limits.batch := by
  induction h with
  | nil => cases ht
  | cons _ cut _ _ ih =>
    rcases List.mem_cons.mp ht with rfl | ht
    · exact cut
    · exact ih ht

theorem perm_actions (h : PagedThrough limits table size patch s turns after) {turn : PageTurn} (ht : turn ∈ turns) :
    turn.actions.Perm (patches patch turn.rows) := by
  rw [PageTurn.actions, h.batches_of_mem ht]
  exact perm_chunkByPartition table _ limits.batch

/-- Turns that hand out the rows of a table stream them. -/
theorem streamed (h : PagedThrough limits table size patch s turns after) {rows : Rows} (hw : Rows.WellFiled rows)
    (hpages : turns.flatMap (·.rows) = rows.values) : Streamed patch rows turns := by
  have honly : ∀ turn ∈ turns, ∀ a ∈ turn.actions,
      ∃ row ∈ turn.rows, patch.apply row = some a.entity ∧ a.kind = .updateMerge := by
    intro turn ht a ha
    exact mem_patches.mp ((h.perm_actions ht).mem_iff.mp ha)
  refine ⟨hpages, ?_, honly⟩
  intro row hrow
  have hnodup : ((turns.flatMap (·.rows)).map (·.key)).Nodup := by
    rw [hpages, map_key_values hw]
    exact rows.nodup_keys
  rw [← hpages] at hrow
  obtain ⟨turn, hturn, hin⟩ := List.mem_flatMap.mp hrow
  rw [List.map_flatMap, List.nodup_flatMap] at hnodup
  obtain ⟨hwithin, hapart⟩ := hnodup
  have hactions := (h.perm_actions hturn).filter (·.entity.key = row.key)
  rw [filter_patches patch (hwithin turn hturn) hin] at hactions
  obtain ⟨front, back, rfl⟩ := List.append_of_mem hturn
  obtain ⟨-, hback, hfront⟩ := List.pairwise_append.mp hapart
  have hother : ∀ other ∈ front ++ back, ∀ row' ∈ other.rows, row'.key ≠ row.key := by
    intro other ho row' hrow' hkey
    have hkey' : row.key ∈ other.rows.map (·.key) := List.mem_map.mpr ⟨row', hrow', hkey⟩
    have hkey : row.key ∈ turn.rows.map (·.key) := List.mem_map.mpr ⟨row, hin, rfl⟩
    rcases List.mem_append.mp ho with ho | ho
    · exact hfront other ho turn List.mem_cons_self hkey' hkey
    · exact List.rel_of_pairwise_cons hback ho hkey hkey'
  refine ⟨front, turn, back, rfl, filter_eq_singleton (·.key) (hwithin turn hturn) hin, ?_, ?_⟩
  · rcases happly : patch.apply row with _ | row' <;> rw [happly] at hactions
    · exact List.perm_nil.mp hactions
    · exact List.perm_singleton.mp hactions
  · intro other ho
    refine ⟨hother other ho, ?_⟩
    intro a ha
    have hmem : other ∈ front ++ turn :: back := by
      rcases List.mem_append.mp ho with ho | ho
      · exact List.mem_append_left _ ho
      · exact List.mem_append_right _ (List.mem_cons_of_mem _ ho)
    obtain ⟨row', hrow', happly, -⟩ := honly other hmem a ha
    rw [key_of_apply happly]
    exact hother other ho row' hrow'

end Execution.PagedThrough

/-! ## counts -/

theorem Execution.countTurns_spec (patch : Patch) (stats : Stats) (turns : List PageTurn) :
    (countTurns patch stats turns).scannedEntities = stats.scannedEntities + (turns.flatMap (·.rows)).length ∧
      (countTurns patch stats turns).patchedEntities =
        stats.patchedEntities + ((turns.flatMap (·.rows)).filter fun row => (patch.apply row).isSome).length := by
  induction turns generalizing stats with
  | nil => exact ⟨rfl, rfl⟩
  | cons turn turns ih =>
    obtain ⟨hscanned, hpatched⟩ := ih ((stats.scanned patch turn.rows).submitted turn.batches)
    have hlength : (patches patch turn.rows).length =
        (turn.rows.filter fun row => (patch.apply row).isSome).length := by
      rw [patches, List.length_map, List.length_filterMap_eq_countP, List.countP_eq_length_filter]
    have hone : ((stats.scanned patch turn.rows).submitted turn.batches).scannedEntities =
        stats.scannedEntities + turn.rows.length := rfl
    have hone' : ((stats.scanned patch turn.rows).submitted turn.batches).patchedEntities =
        stats.patchedEntities + (patches patch turn.rows).length := rfl
    rw [countTurns, List.foldl_cons, ← countTurns, hscanned, hpatched, hone, hone', hlength, List.flatMap_cons,
      List.filter_append, List.length_append, List.length_append]
    omega

/-! ## the scan -/

section

variable {η : Type} [TableStore η] (files : FileReader MemoryStore) {limits : Limits} (hl : limits.Sound)
  (hpage : 1 ≤ limits.page) (made : Nat) {stores : Stores MemoryStore η} (hw : stores.data.WellFiled) (stats : Stats)
  (r : List Step) (patch : Patch) {table : String} {rows : Rows} (ht : stores.data.tables.get? table = some rows)

include hl hpage hw ht

/-- A patch of a whole table ends with every row patched, after turns that hand out the rows as they were. -/
theorem scan_path :
    ∃ n turns made', AskedFrom none turns ∧ turns.flatMap (·.rows) = rows.values ∧
      PagedThrough limits table limits.page patch stores.data turns (stores.data.withRows table (rows.patchAll patch)) ∧
      Path files .calm n (config limits made stores (.scan (.start table limits.page) patch :: r) stats)
        (turns.flatMap (·.calls table limits.page))
        (config limits made' (stores.withData (stores.data.withRows table (rows.patchAll patch))) r
          (countTurns patch stats turns)) := by
  have hfiled := hw.rows ht
  obtain ⟨pager, hpager⟩ : ∃ pager : Pager, pager = ⟨table, limits.page, none, false⟩ := ⟨_, rfl⟩
  have hstart : Pager.start table limits.page = pager := by
    rw [hpager, Pager.start, Nat.max_eq_left hpage]
  have htable : pager.table = table := by rw [hpager]
  have hsize : pager.pageSize = limits.page := by rw [hpager]
  have hx : pager.exhausted = false := by rw [hpager]
  have hpast : rows.past pager.after = rows.entries := by rw [hpager]; rfl
  rw [← htable] at ht
  rw [hstart, ← hsize, ← htable]
  by_cases hne : rows.entries = []
  · -- the only page is empty, and the scan ends with it
    have hsame : rows.patchAll patch = rows := by
      apply SortedMap.ext_entries
      rw [hne]; exact congrArg (List.map _) hne
    have hafter : pager.after = none := by rw [hpager]
    have hquery : stores.data.queryPage pager.table pager.pageSize none = .ok ⟨[], none⟩ := by
      have hempty : EntityPage.ofRows pager.pageSize [] = ⟨[], none⟩ := by simp [EntityPage.ofRows]
      have := congrArg Prod.fst (perform_query ht hpast)
      rw [hne, hafter, List.map_nil, hempty] at this
      exact this
    rw [hsame, MemoryStore.withRows_self ht, stores.withData_data]
    have hpath : Path files .calm 1 (config limits made stores (.scan pager patch :: r) stats) _ _ :=
      .single (transition_empty ht (hpast.trans hne) hx)
    rw [hafter] at hpath
    exact ⟨1, [⟨none, [], []⟩], made + 1, ⟨_, [], rfl, rfl, by simp⟩, by rw [SortedMap.values, hne]; rfl,
      .cons ⟨_, hquery⟩ rfl rfl (.nil _), hpath⟩
  · obtain ⟨n, -, turns, made', pager', after, hx', hasked, hrows, hentries, hpaged, h⟩ :=
      byCall_scan files made stats r hl patch (l := []) ht hfiled rfl hpast hne hx (by rw [hsize]; exact hpage)
    have hpatched : after = rows.patchAll patch := SortedMap.ext_entries hentries
    rw [hpatched] at hpaged h
    have hpath := h.path.trans (.single (transition_exhausted hx'))
    rw [List.append_nil] at hpath
    have hasked : AskedFrom none turns := by
      rw [hpager] at hasked
      exact hasked
    exact ⟨n + 1, turns, made', hasked, hrows, hpaged, hpath⟩

end

/-- A patch of a whole table, where an execution comes to it after `made` calls and has `r` left behind it: the
    execution makes the calls of the turns and comes to `r`, with the table's rows and the patched ones counted. -/
structure Scans {η : Type} [TableStore η] (files : FileReader MemoryStore) (limits : Limits) (table : String)
    (patch : Patch) (made : Nat) (stores : Stores MemoryStore η) (stats : Stats) (r : List Step)
    (turns : List PageTurn) (after : MemoryStore) : Prop where
  path : ∃ n made' stats',
    Path files .calm n (config limits made stores (.scan (.start table limits.page) patch :: r) stats)
      (turns.flatMap (·.calls table limits.page)) (config limits made' (stores.withData after) r stats') ∧
    stats'.scannedEntities = stats.scannedEntities + (stores.data.rowsOf table).size ∧
    stats'.patchedEntities = stats.patchedEntities +
      ((stores.data.rowsOf table).values.filter fun row => (patch.apply row).isSome).length
  paged : PagedThrough limits table limits.page patch stores.data turns after
  streamed : Streamed patch (stores.data.rowsOf table) turns

theorem exists_scans {η : Type} [TableStore η] (files : FileReader MemoryStore) {limits : Limits} (hl : limits.Sound)
    (hpage : 1 ≤ limits.page) (made : Nat) {stores : Stores MemoryStore η} (hw : stores.data.WellFiled) (stats : Stats)
    (r : List Step) (patch : Patch) {table : String} {rows : Rows} (ht : stores.data.tables.get? table = some rows) :
    ∃ turns, Scans files limits table patch made stores stats r turns
      (stores.data.withRows table (rows.patchAll patch)) := by
  obtain ⟨n, turns, made', -, hpages, hpaged, hpath⟩ := scan_path files hl hpage made hw stats r patch ht
  have hrows := MemoryStore.rowsOf_eq ht
  have hfiled := hw table
  rw [← hrows] at hpages
  obtain ⟨hscanned, hpatched⟩ := countTurns_spec patch stats turns
  rw [hpages] at hscanned hpatched
  have hsize : (stores.data.rowsOf table).values.length = (stores.data.rowsOf table).size := List.length_map _
  rw [hsize] at hscanned
  exact ⟨turns, ⟨n, made', _, hpath, hscanned, hpatched⟩, hpaged, hpaged.streamed hfiled hpages⟩

/-- The store has the same tables as before, and the same rows in them; those of the table have the patch applied. -/
structure PatchedStore (table : String) (patch : Patch) (before after : MemoryStore) : Prop where
  others : ∀ u ≠ table, after.tables.get? u = before.tables.get? u
  keys : (after.rowsOf table).keys = (before.rowsOf table).keys
  rows : ∀ k row, (before.rowsOf table).get? k = some row →
    (after.rowsOf table).get? k = some ((patch.apply row).getD row)

theorem patchedStore_withRows {s : MemoryStore} {table : String} {rows : Rows} (ht : s.tables.get? table = some rows)
    (patch : Patch) : PatchedStore table patch s (s.withRows table (rows.patchAll patch)) := by
  have hrows := MemoryStore.rowsOf_eq ht
  have hrows' : (s.withRows table (rows.patchAll patch)).rowsOf table = rows.patchAll patch := by
    rw [s.rowsOf_withRows, if_pos rfl]
  refine ⟨?_, ?_, ?_⟩
  · intro u hu
    rw [s.get?_withRows, if_neg hu]
  · rw [hrows', hrows, SortedMap.keys, SortedMap.keys, Rows.patchAll, SortedMap.mapValues, List.map_map]
    rfl
  · intro k row hk
    rw [hrows] at hk
    rw [hrows', Rows.patchAll, SortedMap.get?_mapValues, hk]
    rfl

/-- A second patch with the same values finds nothing to do. -/
theorem patchAll_patchAll {patch : Patch} (h : ∀ p ∈ patch.properties.entries, p.2 ≠ .double .nan) (rows : Rows) :
    (rows.patchAll patch).patchAll patch = rows.patchAll patch := by
  apply SortedMap.ext_entries
  simp only [Rows.patchAll, SortedMap.mapValues, List.map_map]
  apply List.map_congr_left
  intro x _
  have hagain : Rows.patchRow patch (Rows.patchRow patch x.2) = Rows.patchRow patch x.2 := by
    show (patch.apply (Rows.patchRow patch x.2)).getD _ = _
    rw [patch.apply_patchRow h]
    rfl
  exact congrArg (Prod.mk x.1) hagain

theorem patches_patched {patch : Patch} (h : ∀ p ∈ patch.properties.entries, p.2 ≠ .double .nan) (rows : Rows)
    {l : List Entity} (hl : ∀ row ∈ l, row ∈ (rows.patchAll patch).values) : patches patch l = [] := by
  rw [List.eq_nil_iff_forall_not_mem]
  intro a ha
  obtain ⟨row, hrow, happly, -⟩ := mem_patches.mp ha
  obtain ⟨x, hx, rfl⟩ := List.mem_map.mp (hl row hrow)
  obtain ⟨y, -, rfl⟩ := List.mem_map.mp hx
  rw [patch.apply_patchRow h] at happly
  cases happly

/-- A patch of a whole table goes through every row exactly once, whatever the sizes of pages and batches. It ends;
    every batch is accepted; the table then has the same rows, each as the patch makes it, and the other tables are as
    they were. If no value of the patch is a not-a-number, doing it again right away goes through every row and writes
    nothing. -/
theorem patch_streams {η : Type} [TableStore η] (files : FileReader MemoryStore) {stores : Stores MemoryStore η}
    (h : ReachableFrom .empty stores.data) {table : String} {rows : Rows}
    (ht : stores.data.tables.get? table = some rows) (patch : Patch) (batch page made : Nat) (stats : Stats)
    (r : List Step) :
    ∃ turns after, Scans files (.within batch page) table patch made stores stats r turns after ∧
      PatchedStore table patch stores.data after ∧
      ((∀ p ∈ patch.properties.entries, p.2 ≠ .double .nan) → ∀ batch' page' made' stats' r', ∃ again,
        Scans files (.within batch' page') table patch made' (stores.withData after) stats' r' again after ∧
          ∀ turn ∈ again, turn.batches = []) := by
  have hw := MemoryStore.wellFiled_of_reachable h
  have hpage : ∀ batch page, 1 ≤ (Limits.within batch page).page := fun _ page => Nat.le_max_right page 1
  obtain ⟨turns, hscans⟩ := exists_scans files (Limits.within_sound batch page) (hpage batch page) made hw stats r patch
    ht
  refine ⟨turns, _, hscans, patchedStore_withRows ht patch, ?_⟩
  intro hnan batch' page' made' stats' r'
  have hfiled := hw.rows ht
  have hw' : (stores.withData (stores.data.withRows table (rows.patchAll patch))).data.WellFiled := by
    rw [stores.data_withData]
    exact hw.withRows (hfiled.patchAll patch)
  have ht' : (stores.withData (stores.data.withRows table (rows.patchAll patch))).data.tables.get? table =
      some (rows.patchAll patch) := by
    rw [stores.data_withData]
    exact stores.data.get?_withRows_self table _
  obtain ⟨again, hagain⟩ := exists_scans files (Limits.within_sound batch' page') (hpage batch' page') made' hw' stats'
    r' patch ht'
  rw [stores.data_withData, MemoryStore.withRows_withRows, patchAll_patchAll hnan] at hagain
  refine ⟨again, hagain, ?_⟩
  intro turn hturn
  have hpages := hagain.streamed.pages
  rw [MemoryStore.rowsOf_eq ht'] at hpages
  have hnone : patches patch turn.rows = [] := by
    refine patches_patched hnan rows fun row hrow => ?_
    rw [← hpages]
    exact List.mem_flatMap.mpr ⟨turn, hturn, hrow⟩
  rw [hagain.paged.batches_of_mem hturn, hnone]
  rfl

/-- Two rows in one partition and one in another, which has the patch's value already. -/
def partlyPatched : MemoryStore :=
  let s := (TableStore.perform MemoryStore.empty (.ensureTable "t")).2
  let s := (TableStore.perform s (.submitBatch "t" "p" [⟨.add, .bare ⟨"p", "a"⟩⟩, ⟨.add, .bare ⟨"p", "b"⟩⟩])).2
  (TableStore.perform s (.submitBatch "t" "q" [⟨.add, ⟨⟨"q", "c"⟩, .ofList [("n", .int64 1)]⟩⟩])).2

theorem partlyPatched_reachable : ReachableFrom .empty partlyPatched := .call (.call (.call .refl _) _) _

/-- The rows are patched on pages of two and in batches of one, and not again by the next patch with the same value. -/
theorem patch_streams_partlyPatched :
    ReachableFrom .empty (Stores.shared partlyPatched : Stores MemoryStore MemoryStore).data ∧
      (Stores.shared partlyPatched : Stores MemoryStore MemoryStore).data.tables.get? "t" =
        some (partlyPatched.rowsOf "t") ∧
      ∃ turns after again,
        Scans (fun _ _ => .error .notFound) (.within 1 2) "t" ⟨.ofList [("n", .int64 1)]⟩ 0
          (.shared partlyPatched : Stores MemoryStore MemoryStore) .zero [] turns after ∧
        PatchedStore "t" ⟨.ofList [("n", .int64 1)]⟩ partlyPatched after ∧
        Scans (fun _ _ => .error .notFound) (.within 1 2) "t" ⟨.ofList [("n", .int64 1)]⟩ 0
          (.shared after : Stores MemoryStore MemoryStore) .zero [] again after ∧
        ∀ turn ∈ again, turn.batches = [] := by
  have ht : partlyPatched.tables.get? "t" = some (partlyPatched.rowsOf "t") := by decide +kernel
  obtain ⟨turns, after, hscans, hpatched, hagain⟩ := patch_streams (fun _ _ => .error .notFound)
    (show ReachableFrom .empty (Stores.shared partlyPatched : Stores MemoryStore MemoryStore).data from
      partlyPatched_reachable) ht ⟨.ofList [("n", .int64 1)]⟩ 1 2 0 .zero []
  obtain ⟨again, hscans', hnone⟩ := hagain (by decide) 1 2 0 .zero []
  exact ⟨partlyPatched_reachable, ht, turns, after, again, hscans, hpatched, hscans', hnone⟩

end TableMigrations
