/-
  TableMigrations.Proofs.Agreement — one cannot tell a database from a memory store.

  Whatever is asked of them in whatever order, the answers are the same, refusals with all that they say included, and
  so are the tables and rows in the end (`databases_agree`). A database with a path may be closed and opened again, with
  any journal mode, at any time in between. This is so on any engine that does what engines are documented to do, and as
  far as the pages that are asked for can be fetched (`Request.AllFit`): they all can, whatever their sizes, unless more
  rows are written than an integer of 64 bits can count (`Request.allFit_of_writes`).
-/
import TableMigrations.Proofs.FileEngine
import TableMigrations.Proofs.Sqlite

namespace TableMigrations

/-! ## what users ask for -/

/-- What a user asks of a store: a call, or to find or put a record of a ledger. -/
inductive Request where
  | call (c : Call)
  | findRecord (table : String) (key : RowKey)
  | putRecord (table : String) (record : Entity)

namespace Request

def made : Request → Call
  | .call c => c
  | .findRecord table key => .getEntity table key
  | .putRecord table record => recordCall table record

def told : (r : Request) → Except StoreError r.made.Result → Except StoreError r.made.Result
  | .call _, answer | .findRecord .., answer => answer
  | .putRecord .., answer => answer.mapError StoreError.ofRecord

def perform {σ : Type} [TableStore σ] (s : σ) (r : Request) : Except StoreError r.made.Result × σ :=
  let (answer, s) := TableStore.perform s r.made
  (r.told answer, s)

end Request

abbrev Reply := (r : Request) × Except StoreError r.made.Result

def Request.performAll {σ : Type} [TableStore σ] (s : σ) : List Request → List Reply × σ
  | [] => ([], s)
  | r :: rest =>
    let (answer, s) := r.perform s
    let (answers, s) := performAll s rest
    (⟨r, answer⟩ :: answers, s)

inductive Event where
  | request (r : Request)
  | reopen (config : SqliteConfig)

def Event.request? : Event → Option Request
  | .request r => some r
  | .reopen _ => none

/-- The answers that a database of a path gives while things happen to it, and the database in the end. -/
def SqliteStore.session {E : Engine} (path : String) (d : SqliteStore E) :
    List Event → Except (StoreError × E.World) (List Reply × SqliteStore E)
  | [] => .ok ([], d)
  | .request r :: rest =>
    let (answer, d) := r.perform d
    match session path d rest with
    | .ok (answers, d) => .ok (⟨r, answer⟩ :: answers, d)
    | .error e => .error e
  | .reopen config :: rest =>
    match d.reopen path config with
    | .ok d => session path d rest
    | .error e => .error e

def Request.AllFit (m : MemoryStore) : List Request → Prop
  | [] => True
  | r :: rest => r.made.Fits m ∧ AllFit (r.perform m).2 rest

/-- Whether relations have the tables of a memory store, and the rows of each under their keys. -/
structure Relations.AreOf (E : Engine) (r : Relations) (m : MemoryStore) : Prop where
  names : r.names.keys = m.tableNames
  rows (table : String) : ((r.rows.entries.filter (·.1.table == table)).map fun e =>
      (e.1.key, SqliteStore.decode E e.1.key e.2)) = (m.rowsOf table).entries.map fun x => (x.1, .ok x.2)

def SqliteStore.HasTablesOf {E : Engine} (D : E.Documented) (path : Option String) (d : SqliteStore E)
    (m : MemoryStore) : Prop :=
  ∃ r : Relations, d.Holds D path r ∧ r.AreOf E m

/-! ## pages that can be fetched -/

theorem Call.fits_of_rowTotal {m : MemoryStore} (h : TableStore.rowTotal m < int64Half) (c : Call) : c.Fits m := by
  cases c with
  | queryPage table size after => exact Or.inr (Nat.lt_of_le_of_lt (m.size_rowsOf_le table) h)
  | ensureTable | deleteTable | getEntity | submitBatch => trivial

/-- Where no more rows are written than an integer of 64 bits can count, every page can be fetched. -/
theorem Request.allFit_of_writes {m : MemoryStore} {requests : List Request}
    (h : TableStore.rowTotal m + (requests.map (·.made.writes)).sum < int64Half) : AllFit m requests := by
  induction requests generalizing m with
  | nil => trivial
  | cons r rest ih =>
    rw [List.map_cons, List.sum_cons] at h
    have hnow : TableStore.rowTotal m < int64Half := by omega
    have hnext : TableStore.rowTotal (r.perform m).2 ≤ TableStore.rowTotal m + r.made.writes :=
      m.rowTotal_perform r.made
    exact ⟨r.made.fits_of_rowTotal hnow, ih (by omega)⟩

/-! ## relations and memory -/

namespace DurableStore

theorem tableNames_view (s : DurableStore) : s.tableNames = s.view.tableNames := by
  simp only [tableNames, MemoryStore.tableNames, view, SortedMap.keys, SortedMap.mapValues, List.map_map]
  rfl

theorem rowsOf_view {s : DurableStore} (h : s.Registered) (table : String) :
    s.view.rowsOf table = rowsIn s.rows table := by
  rw [MemoryStore.rowsOf, get?_view]
  rcases ht : s.registry.get? table with _ | ⟨⟩
  · rw [h table ht]
    rfl
  · rfl

end DurableStore

theorem Relations.Encodes.areOf {E : Engine} {r : Relations} {s : DurableStore} (h : r.Encodes E s)
    (hs : s.Registered) : r.AreOf E s.view where
  names := (congrArg SortedMap.keys h.names).trans s.tableNames_view
  rows table := by
    have hrows := congrArg (List.map fun x : RowAddress × Except StoreError Entity => (x.1.key, x.2))
      (h.decode_filter fun a => a.table == table)
    rw [List.map_map, List.map_map] at hrows
    rw [DurableStore.rowsOf_view hs]
    show _ = List.map _ (List.map _ _)
    rw [List.map_map]
    exact hrows

/-- Relations tell the tables. -/
theorem Relations.AreOf.unique {E : Engine} {r : Relations} {m n : MemoryStore} (hm : r.AreOf E m)
    (hn : r.AreOf E n) : m = n := by
  have hrows : ∀ table, m.rowsOf table = n.rowsOf table := by
    intro table
    apply SortedMap.ext_entries
    refine List.map_injective_iff.mpr ?_ ((hm.rows table).symm.trans (hn.rows table))
    rintro ⟨k, e⟩ ⟨j, f⟩ h
    cases h
    rfl
  have htables : ∀ (m : MemoryStore) table,
      m.tables.get? table = if table ∈ m.tableNames then some (m.rowsOf table) else none := by
    intro m table
    rw [MemoryStore.rowsOf]
    rcases ht : m.tables.get? table with _ | rows
    · rw [if_neg]
      intro hin
      obtain ⟨rows, hsome⟩ := SortedMap.mem_keys_iff.mp hin
      cases ht.symm.trans hsome
    · exact (if_pos (SortedMap.mem_keys_iff.mpr ⟨rows, ht⟩)).symm
  apply MemoryStore.ext_tables
  intro table
  rw [htables, htables, hrows, ← hm.names, ← hn.names]

/-! ## databases and memory -/

namespace SqliteStore

variable {E : Engine} {D : E.Documented} {path : Option String} {d : SqliteStore E}

/-- Whether a database and a memory store have come from empty ones in the same way. -/
def Matches (D : E.Documented) (path : Option String) (d : SqliteStore E) (m : MemoryStore) : Prop :=
  ∃ r s, d.Holds D path r ∧ r.Encodes E s ∧ s.Registered ∧ s.view = m

theorem Matches.hasTablesOf {m : MemoryStore} (h : d.Matches D path m) : d.HasTablesOf D path m := by
  obtain ⟨r, s, hd, he, hs, rfl⟩ := h
  exact ⟨r, hd, he.areOf hs⟩

theorem Holds.matches_empty (h : d.Holds D path .empty) : d.Matches D path .empty :=
  ⟨_, _, h, .empty, DurableStore.registered_empty, rfl⟩

theorem Matches.request {m : MemoryStore} (h : d.Matches D path m) {r : Request} (hfit : r.made.Fits m) :
    (r.perform d).1 = (r.perform m).1 ∧ (r.perform d).2.Matches D path (r.perform m).2 := by
  obtain ⟨relations, s, hd, he, hs, rfl⟩ := h
  obtain ⟨after, hafter, hencodes, hanswer, -⟩ := hd.perform he r.made
  rw [fetched_of_fits hfit, s.answer_view] at hanswer
  refine ⟨congrArg r.told hanswer, after, _, hafter, hencodes, hs.perform r.made, ?_⟩
  exact DurableStore.perform_view hs r.made

theorem Matches.reopen {path : String} {m : MemoryStore} (h : d.Matches D (some path) m) (config : SqliteConfig) :
    ∃ e, d.reopen path config = .ok e ∧ e.Matches D (some path) m := by
  obtain ⟨r, s, hd, hrest⟩ := h
  obtain ⟨e, hreopen, he⟩ := hd.reopen config
  exact ⟨e, hreopen, r, s, he, hrest⟩

theorem Matches.performAll {m : MemoryStore} (h : d.Matches D path m) (requests : List Request)
    (hfit : Request.AllFit m requests) :
    (Request.performAll d requests).1 = (Request.performAll m requests).1 ∧
      (Request.performAll d requests).2.Matches D path (Request.performAll m requests).2 := by
  induction requests generalizing d m with
  | nil => exact ⟨rfl, h⟩
  | cons r rest ih =>
    obtain ⟨hanswer, hnext⟩ := h.request hfit.1
    obtain ⟨hanswers, hend⟩ := ih hnext hfit.2
    refine ⟨?_, hend⟩
    simp only [Request.performAll]
    rw [hanswer, hanswers]

theorem Matches.session {path : String} {m : MemoryStore} (h : d.Matches D (some path) m) (events : List Event)
    (hfit : Request.AllFit m (events.filterMap Event.request?)) :
    ∃ e, d.session path events = .ok ((Request.performAll m (events.filterMap Event.request?)).1, e) ∧
      e.Matches D (some path) (Request.performAll m (events.filterMap Event.request?)).2 := by
  induction events generalizing d m with
  | nil => exact ⟨d, rfl, h⟩
  | cons event rest ih =>
    cases event with
    | request r =>
      obtain ⟨hanswer, hnext⟩ := h.request hfit.1
      obtain ⟨e, hsession, he⟩ := ih hnext hfit.2
      refine ⟨e, ?_, he⟩
      simp only [SqliteStore.session, hsession, hanswer]
      rfl
    | reopen config =>
      obtain ⟨next, hreopen, hnext⟩ := h.reopen config
      obtain ⟨e, hsession, he⟩ := ih hnext hfit
      exact ⟨e, by simp only [SqliteStore.session, hreopen]; exact hsession, he⟩

end SqliteStore

/-! ## the databases agree -/

/-- Databases and memory stores cannot be told apart. All start empty; a database with a path is one that is made where
    none is kept. -/
theorem databases_agree {E : Engine} (D : E.Documented) (w : E.World) :
    (∀ requests : List Request, Request.AllFit .empty requests →
      let memory := Request.performAll MemoryStore.empty requests
      ∃ opened, SqliteStore.openInMemory w = .ok opened ∧
        let database := Request.performAll opened requests
        database.1 = memory.1 ∧ database.2.HasTablesOf D none memory.2) ∧
    ∀ path : String, D.Keeps w path none → ∀ (config : SqliteConfig) (events : List Event),
      Request.AllFit .empty (events.filterMap Event.request?) →
        let memory := Request.performAll MemoryStore.empty (events.filterMap Event.request?)
        ∃ opened answers database, SqliteStore.openWithConfig w path config = .ok opened ∧
          opened.session path events = .ok (answers, database) ∧
          answers = memory.1 ∧ database.HasTablesOf D (some path) memory.2 := by
  refine ⟨?_, ?_⟩
  · intro requests hfit memory
    obtain ⟨opened, hopen, hheld⟩ := SqliteStore.openInMemory_holds D w
    obtain ⟨hanswers, hend⟩ := hheld.matches_empty.performAll requests hfit
    exact ⟨opened, hopen, hanswers, hend.hasTablesOf⟩
  · intro path hk config events hfit memory
    obtain ⟨opened, hopen, hheld⟩ := SqliteStore.openWithConfig_of_keeps hk config
    obtain ⟨database, hsession, hend⟩ := hheld.matches_empty.session events hfit
    exact ⟨opened, _, database, hopen, hsession, rfl, hend.hasTablesOf⟩

/-! ## a database that is opened three times -/

def sampleRecord : Entity := ⟨⟨"p", "r"⟩, .ofList [("a", .int64 1)]⟩

/-- A record is put into a table, and refused when it is put again. A batch that deletes it twice is taken back, so it
    is found, and is alone on the largest page that can be asked for. -/
def sampleEvents : List Event :=
  [.request (.call (.ensureTable "t")), .request (.putRecord "t" sampleRecord), .reopen ⟨.delete, 0⟩,
    .request (.putRecord "t" sampleRecord),
    .request (.call (.submitBatch "t" "p" [⟨.delete, sampleRecord⟩, ⟨.delete, sampleRecord⟩])), .reopen ⟨.memory, 0⟩,
    .request (.findRecord "t" ⟨"p", "r"⟩), .request (.call (.queryPage "t" (2 ^ 64 - 1) none))]

theorem sample_databases_agree :
    let t : FileTree := .bare ["srv"]
    Files.documented.Keeps t "store.db" none ∧ Request.AllFit .empty (sampleEvents.filterMap Event.request?) ∧
      ∃ opened answers database,
        SqliteStore.openWithConfig (E := Files.engine) t "store.db" .default = .ok opened ∧
        opened.session "store.db" sampleEvents = .ok (answers, database) ∧
        answers =
          [⟨.call (.ensureTable "t"), .ok ()⟩,
            ⟨.putRecord "t" sampleRecord, .ok ()⟩,
            ⟨.putRecord "t" sampleRecord, .error (.conflict "t" ⟨"p", "r"⟩)⟩,
            ⟨.call (.submitBatch "t" "p" [⟨.delete, sampleRecord⟩, ⟨.delete, sampleRecord⟩]),
              .error (.batchRejected 1 (.entityNotFound "t" ⟨"p", "r"⟩))⟩,
            ⟨.findRecord "t" ⟨"p", "r"⟩, .ok (some sampleRecord)⟩,
            ⟨.call (.queryPage "t" (2 ^ 64 - 1) none), .ok ⟨[sampleRecord], none⟩⟩] ∧
        database.HasTablesOf Files.documented (some "store.db")
          ⟨.ofList [("t", .ofList [(⟨"p", "r"⟩, sampleRecord)])]⟩ ∧
        ∃ volatile, SqliteStore.openInMemory (E := Files.engine) t = .ok volatile ∧
          (Request.performAll volatile (sampleEvents.filterMap Event.request?)).1 = answers := by
  intro t
  have haddress : Address.IsOf "store.db" "store.db" := ⟨by cbv, rfl, by decide⟩
  have hvacant : t.Vacant "store.db" ["srv", "store.db"] :=
    ⟨by cbv, by cbv, by decide +kernel, by decide +kernel, by decide +kernel⟩
  have hkeeps : Files.documented.Keeps t "store.db" none := ⟨_, _, haddress, hvacant⟩
  have hfit : Request.AllFit .empty (sampleEvents.filterMap Event.request?) :=
    Request.allFit_of_writes (by decide +kernel)
  have hmemory : (Request.performAll MemoryStore.empty (sampleEvents.filterMap Event.request?)).2 =
      ⟨.ofList [("t", .ofList [(⟨"p", "r"⟩, sampleRecord)])]⟩ := by decide +kernel
  obtain ⟨opened, answers, database, hopen, hsession, hanswers, htables⟩ :=
    (databases_agree Files.documented t).2 "store.db" hkeeps .default sampleEvents hfit
  obtain ⟨volatile, hopen', hanswers', -⟩ :=
    (databases_agree Files.documented t).1 (sampleEvents.filterMap Event.request?) hfit
  rw [hmemory] at htables
  exact ⟨hkeeps, hfit, opened, answers, database, hopen, hsession, hanswers.trans rfl, htables, volatile, hopen',
    hanswers'.trans hanswers.symm⟩

end TableMigrations
