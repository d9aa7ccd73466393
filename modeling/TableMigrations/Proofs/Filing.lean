/-
  TableMigrations.Proofs.Filing — every row is filed under its own key, in a table that there is.

  A memory store files a row in the map of its table, under a key that the row holds as well; a database files it in one
  relation under its table's name and its key, and registers tables in another. What is filed is one list for both
  (`filings`), and in all states that calls lead to the copies are in step (`Filed`). What is found, listed and emptied
  is therefore right (`Shows`). Both are proved of memory stores and carried over to durable stores, which answer alike
  from now on (`Shows.of_answersAlike`), and from these to the databases whose relations encode them
  (`SqliteStore.Holds.shows`).
-/
import TableMigrations.Proofs.Atomicity
import TableMigrations.Proofs.Scan

namespace TableMigrations

open Std

/-! ## what is filed -/

def MemoryStore.filings (m : MemoryStore) : List (RowAddress × Entity) :=
  m.tables.entries.flatMap fun t => t.2.entries.map fun r => (⟨t.1, r.1⟩, r.2)

def DurableStore.filings (s : DurableStore) : List (RowAddress × Entity) :=
  s.rows.entries.map fun r => (r.1, ⟨r.1.key, r.2⟩)

/-- Rows as they have to be filed where there are tables of these names. -/
structure Filed (names : List String) (filings : List (RowAddress × Entity)) : Prop where
  own : ∀ x ∈ filings, x.2.key = x.1.key
  /-- They are in order, so no two of a table have the same key. -/
  increasing : filings.Pairwise fun x y => compare x.1 y.1 = .lt
  housed : ∀ x ∈ filings, x.1.table ∈ names

/-- A page of a table shows rows that are filed there, in order, and goes on from where its last row is filed. -/
structure PageOf (filings : List (RowAddress × Entity)) (table : String) (page : EntityPage) : Prop where
  increasing : page.entities.Pairwise fun a b => compare a.key b.key = .lt
  filed : ∀ row ∈ page.entities, (⟨table, row.key⟩, row) ∈ filings
  token : ∀ k, page.continuation = some k → ∃ row, page.entities.getLast? = some row ∧ (⟨table, k⟩, row) ∈ filings

theorem PageOf.ofRows {filings : List (RowAddress × Entity)} {table : String} {rows : List Entity}
    (hsorted : rows.Pairwise fun a b => compare a.key b.key = .lt)
    (hfiled : ∀ row ∈ rows, (⟨table, row.key⟩, row) ∈ filings) (size : Nat) :
    PageOf filings table (.ofRows size rows) := by
  have hrow : ∀ row ∈ rows.take size, (⟨table, row.key⟩, row) ∈ filings :=
    fun row hrow => hfiled row (List.mem_of_mem_take hrow)
  constructor
  case increasing => exact hsorted.sublist (List.take_sublist _ _)
  case filed => exact hrow
  case token =>
    intro k hk
    simp only [EntityPage.ofRows] at hk ⊢
    split at hk
    · obtain ⟨row, hlast, rfl⟩ := Option.map_eq_some_iff.mp hk
      exact ⟨row, hlast, hrow row (List.mem_of_getLast? hlast)⟩
    · cases hk

section

variable {σ τ : Type} [TableStore σ] [TableStore τ]

structure Renewable (s : σ) (table : String) : Prop where
  deleted : (TableStore.perform s (.deleteTable table)).1 = .ok ()
  made : (TableStore.perform (performAll s [.deleteTable table]) (.ensureTable table)).1 = .ok ()
  missing : ∀ k,
    (TableStore.perform (performAll s [.deleteTable table, .ensureTable table]) (.getEntity table k)).1 = .ok none
  blank : ∀ size after,
    (TableStore.perform (performAll s [.deleteTable table, .ensureTable table]) (.queryPage table size after)).1 =
      .ok ⟨[], none⟩

/-- What a store answers that has filed these rows. -/
structure Shows (s : σ) (filings : List (RowAddress × Entity)) : Prop where
  found : ∀ table k row, (TableStore.perform s (.getEntity table k)).1 = .ok (some row) ↔ (⟨table, k⟩, row) ∈ filings
  key : ∀ table k row, (TableStore.perform s (.getEntity table k)).1 = .ok (some row) → row.key = k
  pages : ∀ table size after page, (TableStore.perform s (.queryPage table size after)).1 = .ok page →
    PageOf filings table page
  renewable : ∀ table, Renewable s table

/-! ## stores that answer alike -/

def AnswersAlike (s : σ) (t : τ) : Prop :=
  ∀ (calls : List Call) (c : Call),
    (TableStore.perform (performAll s calls) c).1 = (TableStore.perform (performAll t calls) c).1

theorem answersAlike_of_step {R : σ → τ → Prop}
    (hstep : ∀ {s t}, R s t → ∀ c, (TableStore.perform s c).1 = (TableStore.perform t c).1 ∧
      R (TableStore.perform s c).2 (TableStore.perform t c).2) {s : σ} {t : τ} (h : R s t) : AnswersAlike s t := by
  intro calls c
  induction calls generalizing s t with
  | nil => exact (hstep h c).1
  | cons d _ ih => exact ih (hstep h d).2

theorem Shows.of_answersAlike {s : σ} {t : τ} {filings : List (RowAddress × Entity)} (h : AnswersAlike s t)
    (ht : Shows t filings) : Shows s filings := by
  have hnow : ∀ c, (TableStore.perform s c).1 = (TableStore.perform t c).1 := h []
  constructor
  case found =>
    intro table k row
    rw [hnow]
    exact ht.found table k row
  case key =>
    intro table k row
    rw [hnow]
    exact ht.key table k row
  case pages =>
    intro table size after page
    rw [hnow]
    exact ht.pages table size after page
  case renewable =>
    intro table
    obtain ⟨hdeleted, hmade, hmissing, hblank⟩ := ht.renewable table
    constructor
    case deleted => exact (hnow _).trans hdeleted
    case made => exact (h _ _).trans hmade
    case missing => exact fun k => (h _ _).trans (hmissing k)
    case blank => exact fun size after => (h _ _).trans (hblank size after)

end

/-! ## memory stores -/

namespace MemoryStore

variable {m : MemoryStore}

theorem mem_filings {t : String} {k : RowKey} {row : Entity} :
    (⟨t, k⟩, row) ∈ m.filings ↔ ∃ rows, m.tables.get? t = some rows ∧ rows.get? k = some row := by
  simp only [filings, List.mem_flatMap, List.mem_map, SortedMap.get?_eq_some_iff]
  constructor
  · rintro ⟨⟨_, rows⟩, hrows, ⟨_, _⟩, hrow, he⟩
    cases he
    exact ⟨rows, hrows, hrow⟩
  · rintro ⟨rows, hrows, hrow⟩
    exact ⟨(t, rows), hrows, (k, row), hrow, rfl⟩

theorem filed (h : m.WellFiled) : Filed m.tableNames m.filings := by
  have hfiled : ∀ x ∈ m.filings, ∃ rows, m.tables.get? x.1.table = some rows ∧ rows.get? x.1.key = some x.2 := by
    intro x hx
    exact mem_filings.mp hx
  constructor
  case own =>
    intro x hx
    obtain ⟨rows, ht, hrow⟩ := hfiled x hx
    exact h.rows ht _ _ hrow
  case increasing =>
    refine List.pairwise_flatMap.mpr ⟨?_, m.tables.sorted.imp ?_⟩
    · intro t _
      refine List.pairwise_map.mpr (t.2.sorted.imp ?_)
      intro x y hlt
      exact (compare_rowAddress t.1 x.1 y.1).trans hlt
    · intro t u htu x hx y hy
      obtain ⟨_, -, rfl⟩ := List.mem_map.mp hx
      obtain ⟨_, -, rfl⟩ := List.mem_map.mp hy
      show (compare t.1 u.1).then _ = .lt
      rw [htu]
      rfl
  case housed =>
    intro x hx
    obtain ⟨rows, ht, -⟩ := hfiled x hx
    exact SortedMap.mem_keys_iff.mpr ⟨rows, ht⟩

theorem getEntity_eq_some_iff {t : String} {k : RowKey} {row : Entity} :
    m.getEntity t k = .ok (some row) ↔ (⟨t, k⟩, row) ∈ m.filings := by
  rw [mem_filings, getEntity]
  rcases m.tables.get? t with _ | rows <;> simp

theorem past_filed (h : m.WellFiled) {t : String} {rows : Rows} (ht : m.tables.get? t = some rows)
    (after : Option RowKey) :
    ((rows.past after).map (·.2)).Pairwise (fun a b => compare a.key b.key = .lt) ∧
      ∀ row ∈ (rows.past after).map (·.2), (⟨t, row.key⟩, row) ∈ m.filings := by
  obtain ⟨hsorted, hown⟩ := keys_past (h.rows ht) (List.append_nil (rows.past after)).symm
  exact ⟨hsorted, fun row hrow => mem_filings.mpr ⟨rows, ht, (hown row hrow).1⟩⟩

theorem pageOf (h : m.WellFiled) {t : String} {size : Nat} {after : Option RowKey} {page : EntityPage}
    (hp : m.queryPage t size after = .ok page) : PageOf m.filings t page := by
  rcases ht : m.tables.get? t with _ | rows
  · simp [queryPage, ht] at hp
  · obtain rfl : .ofRows size ((rows.past after).map (·.2)) = page := by simpa [queryPage, ht] using hp
    obtain ⟨hsorted, hfiled⟩ := past_filed h ht after
    exact .ofRows hsorted hfiled size

theorem snapshot_filed (h : m.WellFiled) {t : String} {rows : List Entity} (hs : m.snapshot t = .ok rows) :
    rows.Pairwise (fun a b => compare a.key b.key = .lt) ∧ ∀ row, row ∈ rows ↔ (⟨t, row.key⟩, row) ∈ m.filings := by
  rcases ht : m.tables.get? t with _ | all
  · simp [snapshot, ht] at hs
  · obtain rfl : all.values = rows := by simpa [snapshot, ht] using hs
    -- a snapshot is all that lies past no position
    obtain ⟨hsorted, hfiled⟩ := past_filed h ht none
    refine ⟨hsorted, fun row => ⟨hfiled row, ?_⟩⟩
    · intro hrow
      obtain ⟨rows, ht', hrow⟩ := mem_filings.mp hrow
      cases ht.symm.trans ht'
      exact List.mem_map_of_mem (SortedMap.get?_eq_some_iff.mp hrow)

theorem renewable (m : MemoryStore) (t : String) : Renewable m t := by
  have hrenewed : performAll m [.deleteTable t, .ensureTable t] = m.withRows t .empty := m.ensureTable_deleteTable t
  have ht : (m.withRows t .empty).tables.get? t = some .empty := m.get?_withRows_self t .empty
  constructor
  case deleted | made => rfl
  case missing =>
    intro k
    rw [hrenewed]
    show (m.withRows t .empty).getEntity t k = .ok none
    rw [getEntity, ht]
    rfl
  case blank =>
    intro size after
    rw [hrenewed]
    show (m.withRows t .empty).queryPage t size after = .ok ⟨[], none⟩
    rw [queryPage, ht]
    cases after <;> simp [EntityPage.ofRows, SortedMap.past, SortedMap.empty]

theorem shows (h : m.WellFiled) : Shows m m.filings := by
  constructor
  case found => exact fun _ _ _ => getEntity_eq_some_iff
  case key =>
    intro t k row hrow
    exact (filed h).own _ (getEntity_eq_some_iff.mp hrow)
  case pages => exact fun _ _ _ _ hp => pageOf h hp
  case renewable => exact m.renewable

end MemoryStore

/-! ## databases -/

namespace DurableStore

variable {s : DurableStore}

theorem mem_filings {t : String} {k : RowKey} {row : Entity} :
    (⟨t, k⟩, row) ∈ s.filings ↔ loadRow s.rows t k = some row := by
  simp only [filings, loadRow, List.mem_map, Option.map_eq_some_iff, SortedMap.get?_eq_some_iff]
  constructor
  · rintro ⟨⟨_, p⟩, hp, he⟩
    cases he
    exact ⟨p, hp, rfl⟩
  · rintro ⟨p, hp, rfl⟩
    exact ⟨(⟨t, k⟩, p), hp, rfl⟩

theorem wellFiled_view (s : DurableStore) : s.view.WellFiled := by
  intro t k row hrow
  rw [MemoryStore.rowsOf, get?_view] at hrow
  rcases hr : s.registry.get? t with _ | ⟨⟩
  · rw [hr] at hrow
    cases hrow
  · rw [hr, Option.map_some, Option.getD_some, get?_rowsIn] at hrow
    obtain ⟨_, -, rfl⟩ := Option.map_eq_some_iff.mp hrow
    rfl

/-- The relations file what they file when they are read as tables. -/
theorem filings_view (h : s.Registered) : s.view.filings = s.filings := by
  refine SortedMap.eq_of_mem_iff (MemoryStore.filed s.wellFiled_view).increasing
    (List.pairwise_map.mpr s.rows.sorted) ?_
  rintro ⟨⟨t, k⟩, row⟩
  rw [mem_filings, MemoryStore.mem_filings, get?_view, ← get?_rowsIn]
  rcases hr : s.registry.get? t with _ | ⟨⟩
  · -- nothing is filed under a name that is not registered
    rw [h t hr]
    simp
  · simp

theorem filed (h : s.Registered) : Filed s.tableNames s.filings := by
  rw [tableNames_view, ← filings_view h]
  exact MemoryStore.filed s.wellFiled_view

theorem answersAlike_view (h : s.Registered) : AnswersAlike s s.view := by
  refine answersAlike_of_step (R := fun s m => s.Registered ∧ m = s.view) ?_ ⟨h, rfl⟩
  rintro s _ ⟨hs, rfl⟩ c
  exact ⟨s.answer_view c, hs.perform c, (perform_view hs c).symm⟩

theorem shows (h : s.Registered) : Shows s s.filings := by
  rw [← filings_view h]
  exact .of_answersAlike (answersAlike_view h) (MemoryStore.shows s.wellFiled_view)

end DurableStore

namespace SqliteStore

variable {E : Engine} {D : E.Documented} {path : Option String} {d : SqliteStore E} {r : Relations} {s : DurableStore}

/-- However many rows a fetch gets, it gets them from where they are filed. -/
theorem pageOf (hs : s.Registered) {t : String} {size : Nat} {after : Option RowKey} {page : EntityPage}
    (hp : fetched s (.queryPage t size after) = .ok page) : PageOf s.filings t page := by
  rw [fetched] at hp
  rcases s.contains_view t with ⟨hc, ht⟩ | ⟨hc, -⟩
  · rw [if_pos hc] at hp
    obtain rfl := Except.ok.inj hp
    obtain ⟨hsorted, hfiled⟩ := MemoryStore.past_filed s.wellFiled_view ht after
    rw [← DurableStore.rowsPast_view, DurableStore.filings_view hs] at hfiled
    rw [← DurableStore.rowsPast_view] at hsorted
    exact .ofRows (hsorted.sublist (List.take_sublist _ _)) (fun row hrow => hfiled row (List.mem_of_mem_take hrow)) size
  · rw [hc, if_neg Bool.false_ne_true] at hp
    cases hp

theorem Holds.renewable (hd : d.Holds D path r) (h : r.Encodes E s) (hs : s.Registered) (t : String) :
    Renewable d t := by
  obtain ⟨deleted, hd', h', hdeleted, -⟩ := hd.perform h (.deleteTable t)
  have hs' := hs.perform (.deleteTable t)
  obtain ⟨made, hd'', h'', hmade, -⟩ := hd'.perform h' (.ensureTable t)
  have hrenewed := (DurableStore.shows hs).renewable t
  have hview : (TableStore.perform (TableStore.perform s (.deleteTable t)).2 (.ensureTable t)).2.view =
      s.view.withRows t .empty := by
    rw [DurableStore.perform_view hs', DurableStore.perform_view hs]
    exact s.view.ensureTable_deleteTable t
  constructor
  case deleted => exact hdeleted
  case made => exact hmade
  case missing =>
    intro k
    obtain ⟨-, -, -, hanswer, -⟩ := hd''.perform h'' (.getEntity t k)
    exact hanswer.trans (hrenewed.missing k)
  case blank =>
    intro size after
    obtain ⟨-, -, -, hanswer, -⟩ := hd''.perform h'' (.queryPage t size after)
    have hfits : (Call.queryPage t size after).Fits (s.view.withRows t .empty) := by
      refine Or.inr ?_
      rw [MemoryStore.rowsOf_withRows, if_pos rfl]
      decide
    rw [← hview] at hfits
    exact (hanswer.trans (fetched_of_fits hfits)).trans (hrenewed.blank size after)

theorem Holds.shows (hd : d.Holds D path r) (h : r.Encodes E s) (hs : s.Registered) : Shows d s.filings := by
  have hanswer : ∀ q, (TableStore.perform d q).1 = fetched s q := by
    intro q
    obtain ⟨-, -, -, hanswer, -⟩ := hd.perform h q
    exact hanswer
  have hshows := DurableStore.shows hs
  constructor
  case found =>
    intro table k row
    rw [hanswer]
    exact hshows.found table k row
  case key =>
    intro table k row
    rw [hanswer]
    exact hshows.key table k row
  case pages =>
    intro table size after page
    rw [hanswer]
    exact pageOf hs
  case renewable => exact hd.renewable h hs

end SqliteStore

/-- On every state that calls lead to, a memory store and a database in use file each row under its own key, no two of a
    table under one, and only in tables that there are: in a database, under registered names. So what is found under a
    key has that key, pages and snapshots are in the order of the rows' keys, a page is followed from where its last row
    is filed, and a table that is deleted and made anew has no rows. -/
theorem rows_filed :
    (∀ m : MemoryStore, ReachableFrom .empty m → Filed m.tableNames m.filings ∧ Shows m m.filings ∧
      ∀ table rows, m.snapshot table = .ok rows →
        rows.Pairwise (fun a b => compare a.key b.key = .lt) ∧
          ∀ row, row ∈ rows ↔ (⟨table, row.key⟩, row) ∈ m.filings) ∧
    ∀ (E : Engine) (D : E.Documented) (path : Option String) (d : SqliteStore E), SqliteStore.InUse D path d →
      ∃ (r : Relations) (filings : List (RowAddress × Entity)), d.Holds D path r ∧
        (r.rows.entries.map fun e => (e.1, SqliteStore.decode E e.1.key e.2)) = filings.map (fun x => (x.1, .ok x.2)) ∧
        Filed r.names.keys filings ∧ Shows d filings := by
  constructor
  · intro m h
    have hw := MemoryStore.wellFiled_of_reachable h
    exact ⟨MemoryStore.filed hw, MemoryStore.shows hw, fun _ _ => MemoryStore.snapshot_filed hw⟩
  · intro E D path d h
    obtain ⟨r, s, hd, he, hs⟩ := h.holds
    have hreg := DurableStore.registered_of_reachable hs
    refine ⟨r, s.filings, hd, ?_, ?_, hd.shows he hreg⟩
    · have hrows := he.decode_filter fun _ => true
      rw [List.filter_true, List.filter_true] at hrows
      rw [hrows, DurableStore.filings, List.map_map]
      rfl
    · rw [he.names]
      exact DurableStore.filed hreg

/-- A table that was deleted with its row and made anew. It has been given another row since, and a batch that deletes
    that row twice has been refused. -/
def remadeTable : MemoryStore :=
  performAll .empty [.ensureTable "t", .submitBatch "t" "p" [⟨.add, sampleRecord⟩], .deleteTable "t", .ensureTable "t",
    .submitBatch "t" "q" [⟨.add, .bare ⟨"q", "x"⟩⟩],
    .submitBatch "t" "q" [⟨.delete, .bare ⟨"q", "x"⟩⟩, ⟨.delete, .bare ⟨"q", "x"⟩⟩]]

theorem rows_filed_remade :
    ReachableFrom .empty remadeTable ∧ remadeTable.filings = [(⟨"t", ⟨"q", "x"⟩⟩, .bare ⟨"q", "x"⟩)] ∧
      Filed ["t"] remadeTable.filings ∧ Shows remadeTable remadeTable.filings ∧
      SqliteStore.InUse Files.documented none servedDatabase ∧
      Filed ["t"] [(⟨"t", ⟨"p", "r"⟩⟩, sampleRecord)] ∧ Shows servedDatabase [(⟨"t", ⟨"p", "r"⟩⟩, sampleRecord)] := by
  have hreachable : ReachableFrom MemoryStore.empty remadeTable := .performAll .refl _
  obtain ⟨hfiled, hshows, -⟩ := rows_filed.1 remadeTable hreachable
  obtain ⟨r, filings, hholds, hdecode, hfiled', hshows'⟩ :=
    rows_filed.2 Files.engine Files.documented none servedDatabase servedDatabase_inUse
  obtain ⟨r', hr', hareOf⟩ := servedDatabase_hasTablesOf
  obtain rfl := hr'.unique hholds
  have hnames : r'.names.keys = ["t"] := hareOf.names
  rw [hnames] at hfiled'
  -- no row is in another table, so the rows of this one are all
  have hall : r'.rows.entries.filter (·.1.table == "t") = r'.rows.entries := by
    rw [List.filter_eq_self]
    intro e he
    have hmem := hdecode ▸ List.mem_map_of_mem he
    obtain ⟨x, hx, hxe⟩ := List.mem_map.mp hmem
    have hhoused := hfiled'.housed x hx
    rw [congrArg Prod.fst hxe] at hhoused
    simpa using hhoused
  have hrows := hareOf.rows "t"
  rw [hall] at hrows
  have hkeyed := congrArg (List.map fun y : RowAddress × Except StoreError Entity => (y.1.key, y.2)) hdecode
  rw [List.map_map, List.map_map] at hkeyed
  have hone : (filings.map fun x => (x.1.key, (.ok x.2 : Except StoreError Entity))) =
      [(⟨"p", "r"⟩, .ok sampleRecord)] := hkeyed.symm.trans (hrows.trans (by decide +kernel))
  obtain ⟨⟨⟨table, key⟩, row⟩, rfl, hx⟩ := List.map_eq_singleton_iff.mp hone
  cases hx
  obtain rfl : table = "t" := by simpa using hfiled'.housed _ (List.mem_singleton_self _)
  exact ⟨hreachable, by decide +kernel, hfiled, hshows, servedDatabase_inUse, hfiled', hshows'⟩

end TableMigrations
