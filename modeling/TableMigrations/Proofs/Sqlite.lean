/-
  TableMigrations.Proofs.Sqlite — a store on a documented engine answers as its relations do.

  What work comes to is told by where the connection stands before and after it (`Does`), and put together as the work
  is. Rows are read and written alike inside a transaction and outside (`Serves`). The relations encode a durable store
  (`Relations.Encodes`), every call on the one is the call on the other (`does_call`), and so a store that holds
  relations keeps to its durable store through calls, closing and opening (`Holds`).

  No fetch gets more rows than an integer of 64 bits says. So a page of that size or more may tell less than the
  durable store's does, unless the table has fewer rows than that (`Call.Fits`).
-/
import TableMigrations.Proofs.Durable
import TableMigrations.Store.Sqlite

namespace TableMigrations

/-! ## relations and durable stores -/

/-- Whether relations are those of a durable store, with the properties as bytes. -/
structure Relations.Encodes (E : Engine) (r : Relations) (s : DurableStore) : Prop where
  names : r.names = s.registry
  rows : (r.rows.mapValues fun _ b => E.decode b) = s.rows.mapValues fun _ p => .ok p

namespace Relations.Encodes

variable {E : Engine} {r : Relations} {s : DurableStore}

theorem empty : Encodes E .empty .empty := ⟨rfl, rfl⟩

section

variable (h : r.Encodes E s)

include h

theorem insertName (table : String) : ((Statement.insertName table).effect r).Encodes E (s.ensureTable table) where
  names := congrArg (·.insert table ()) h.names
  rows := h.rows

theorem deleteTable (table : String) :
    ((Statement.deleteName table).effect ((Statement.deleteRows table).effect r)).Encodes E (s.deleteTable table) where
  names := congrArg (·.erase table) h.names
  rows := by
    show (r.rows.filterKeys (·.table != table)).mapValues _ = (s.rows.filterKeys (·.table != table)).mapValues _
    rw [SortedMap.mapValues_filterKeys, SortedMap.mapValues_filterKeys, h.rows]

theorem upsertRow {b : ByteArray} {properties : Properties} (hb : E.decode b = .ok properties) (table : String)
    (key : RowKey) : ((Statement.upsertRow table key b).effect r).Encodes E
      { s with rows := s.rows.insert ⟨table, key⟩ properties } where
  names := h.names
  rows := by
    show (r.rows.insert _ _).mapValues _ = (s.rows.insert _ _).mapValues _
    rw [SortedMap.mapValues_insert, SortedMap.mapValues_insert, h.rows, hb]

theorem deleteRow (table : String) (key : RowKey) : ((Statement.deleteRow table key).effect r).Encodes E
    { s with rows := s.rows.erase ⟨table, key⟩ } where
  names := h.names
  rows := by
    show (r.rows.erase _).mapValues _ = (s.rows.erase _).mapValues _
    rw [SortedMap.mapValues_erase, SortedMap.mapValues_erase, h.rows]

theorem get? (a : RowAddress) : (r.rows.get? a).map E.decode = (s.rows.get? a).map .ok := by
  have := congrArg (·.get? a) h.rows
  simpa only [SortedMap.get?_mapValues] using this

/-- Rows that are chosen by where they are filed are decoded to those that the durable store has there. -/
theorem decode_filter (p : RowAddress → Bool) :
    ((r.rows.entries.filter fun e => p e.1).map fun e => (e.1, SqliteStore.decode E e.1.key e.2)) =
      (s.rows.entries.filter fun e => p e.1).map fun e => (e.1, .ok ⟨e.1.key, e.2⟩) := by
  have hentries : (r.rows.entries.map fun e => (e.1, E.decode e.2)) = s.rows.entries.map fun e => (e.1, .ok e.2) :=
    congrArg SortedMap.entries h.rows
  have hfiltered := congrArg (fun l => l.filter fun e => p e.1) hentries
  simp only [List.filter_map] at hfiltered
  have hmapped := congrArg (List.map fun e : RowAddress × Except String Properties =>
    (e.1, (e.2.mapError StoreError.codec).map fun properties => Entity.mk e.1.key properties)) hfiltered
  rw [List.map_map, List.map_map] at hmapped
  exact hmapped

end

end Relations.Encodes

/-! ## how many rows a fetch gets -/

/-- How many rows are fetched for a page, if there are so many. -/
def SqliteStore.fetchCount (pageSize : Nat) : Nat := min (pageSize + 1) (int64Half - 1)

theorem limited_fetchLimit {α : Type} (pageSize : Nat) (rows : List α) :
    limited (SqliteStore.fetchLimit pageSize) rows = rows.take (SqliteStore.fetchCount pageSize) := by
  have hhalf : int64Half = 2 ^ 63 := by decide
  unfold SqliteStore.fetchLimit SqliteStore.fetchCount limited
  split
  next h =>
    have hlt : pageSize + 1 < 2 ^ 63 := hhalf ▸ h
    have hpos : ¬Int64.ofNat (pageSize + 1) < 0 := by
      rw [Int64.lt_iff_toInt_lt, Int64.toInt_ofNat_of_lt hlt]
      simp
      omega
    rw [if_neg hpos, Int64.toNatClampNeg_ofNat_of_lt hlt, Nat.min_eq_left (by omega)]
  next h =>
    rw [if_neg (by decide), Nat.min_eq_right (by omega)]
    rfl

example : SqliteStore.fetchLimit 100 = 101 := by decide

example : SqliteStore.fetchLimit (2 ^ 63 - 2) = Int64.maxValue ∧ SqliteStore.fetchLimit (2 ^ 63 - 1) = Int64.maxValue ∧
    SqliteStore.fetchLimit (2 ^ 64 - 1) = Int64.maxValue := by decide

namespace SqliteStore

variable {E : Engine} {D : E.Documented} {path : Option String} {α β : Type}

/-! ## work on a documented engine -/

/-- On a connection that stands there, the work comes to this answer and leaves the connection standing here. -/
structure Does (D : E.Documented) (path : Option String) (before : Engine.Standing) (work : Work E α)
    (answer : Except StoreError α) (after : Engine.Standing) : Prop where
  run {c : E.Connection} (hc : D.Stands c path before) : ∃ d, work.on c = (answer, d) ∧ D.Stands d path after

namespace Does

variable {before mid after : Engine.Standing}

theorem pure (a : α) : Does D path before (pure a) (.ok a) before := ⟨fun hc => ⟨_, rfl, hc⟩⟩

theorem throw (e : StoreError) : Does D path before (throw e : Work E α) (.error e) before :=
  ⟨fun hc => ⟨_, rfl, hc⟩⟩

theorem lift {x answer : Except StoreError α} (h : x = answer) : Does D path before (liftM x) answer before :=
  ⟨fun hc => ⟨_, by rw [Work.on_lift, h], hc⟩⟩

theorem bind {w : Work E α} {a : α} {f : α → Work E β} {answer : Except StoreError β}
    (hw : Does D path before w (.ok a) mid) (hf : Does D path mid (f a) answer after) :
    Does D path before (w >>= f) answer after := by
  constructor
  intro c hc
  obtain ⟨d, hon, hd⟩ := hw.run hc
  rw [Work.on_bind_ok hon]
  exact hf.run hd

theorem bind_error {w : Work E α} {e : StoreError} (hw : Does D path before w (.error e) after) (f : α → Work E β) :
    Does D path before (w >>= f) (.error e) after := by
  constructor
  intro c hc
  obtain ⟨d, hon, hd⟩ := hw.run hc
  exact ⟨d, Work.on_bind_error hon f, hd⟩

theorem adapt {w : Work E α} {answer : Except StoreError α} (hw : Does D path before w answer after)
    (f : StoreError → StoreError) : Does D path before (ExceptT.adapt f w) (answer.mapError f) after := by
  constructor
  intro c hc
  obtain ⟨d, hon, hd⟩ := hw.run hc
  exact ⟨d, by rw [Work.on_adapt, hon], hd⟩

theorem ask {demand : Demand E.Connection α} {a : α}
    (h : ∀ {c}, D.Stands c path before → ∃ d, demand c = (.ok a, d) ∧ D.Stands d path after) :
    Does D path before (ask demand) (.ok a) after := by
  constructor
  intro c hc
  obtain ⟨d, hon, hd⟩ := h hc
  exact ⟨d, by rw [SqliteStore.ask, Work.on_mk, hon]; rfl, hd⟩

/-- Work that leaves the connection standing where it did for each member is done member by member. -/
theorem mapM {f : α → Work E β} {l : List α} {answers : List β}
    (h : List.Forall₂ (fun a b => Does D path before (f a) (.ok b) before) l answers) :
    Does D path before (l.mapM f) (.ok answers) before := by
  induction h with
  | nil => exact .pure []
  | cons hb _ ih =>
    rw [List.mapM_cons]
    exact .bind hb (.bind ih (.pure _))

theorem transaction {w : Work E Unit} {r now : Relations}
    (hw : Does D path (.within r r) w (.ok ()) (.within r now)) :
    Does D path (.idle r) (transaction w) (.ok ()) (.idle now) := by
  refine .bind (.ask D.start) ⟨fun hc => ?_⟩
  obtain ⟨d, hon, hd⟩ := (hw.bind (f := fun _ => SqliteStore.ask E.commit) (.ask D.commit)).run hc
  exact ⟨d, by rw [Work.on_tryCatch, hon], hd⟩

/-- Nothing is left of what was done in a transaction that fails. -/
theorem transaction_error {w : Work E Unit} {r now : Relations} {e : StoreError}
    (hw : Does D path (.within r r) w (.error e) (.within r now)) :
    Does D path (.idle r) (SqliteStore.transaction w) (.error e) (.idle r) := by
  refine .bind (.ask D.start) ⟨fun hc => ?_⟩
  obtain ⟨d, hon, hd⟩ := (hw.bind_error _).run hc
  exact ⟨E.rollback d, by rw [Work.on_tryCatch, hon]; rfl, D.rollback hd⟩

end Does

/-! ## rows -/

/-- Whether statements are carried out at these standings, of which there is one for any relations. -/
def Serves (D : E.Documented) (path : Option String) (standing : Relations → Engine.Standing) : Prop :=
  ∀ r q, Does D path (standing r) (ask (E.execute q)) (.ok (q.answer r)) (standing (q.effect r))

theorem serves_idle (D : E.Documented) (path : Option String) : Serves D path .idle :=
  fun _ q => .ask fun hc => D.execute hc q

theorem serves_within (D : E.Documented) (path : Option String) (before : Relations) :
    Serves D path (.within before) :=
  fun _ q => .ask fun hc => D.executeWithin hc q

section

variable {standing : Relations → Engine.Standing} (hserves : Serves D path standing) {r : Relations}
  {s : DurableStore} (h : r.Encodes E s)

include hserves h

theorem does_requireTable (table : String) : Does D path (standing r) (requireTable table)
    (if s.registry.contains table then .ok () else .error (.tableNotFound table)) (standing r) := by
  have hselect := hserves r (.selectName table)
  have hexists : Does D path (standing r) (tableExists table) (.ok (s.registry.contains table)) (standing r) := by
    refine .bind hselect ?_
    rw [← h.names]
    by_cases hc : r.names.contains table = true
    · simp only [Statement.answer, hc, if_true]
      exact .pure true
    · simp only [Statement.answer, hc, Bool.false_eq_true, if_false]
      exact .pure false
  refine .bind hexists ?_
  cases s.registry.contains table
  · exact .throw _
  · exact .pure ()

theorem does_loadRow (table : String) (key : RowKey) :
    Does D path (standing r) (loadRow table key) (.ok (DurableStore.loadRow s.rows table key)) (standing r) := by
  have hrow := h.get? ⟨table, key⟩
  refine .bind (hserves r (.selectRow table key)) ?_
  simp only [Statement.answer, DurableStore.loadRow]
  rcases hs : s.rows.get? ⟨table, key⟩ with _ | properties
  · rw [hs, Option.map_none, Option.map_eq_none_iff] at hrow
    rw [hrow]
    exact .pure none
  · rw [hs] at hrow
    obtain ⟨b, hb, hdecode⟩ := Option.map_eq_some_iff.mp hrow
    have hentity : decode E key b = .ok ⟨key, properties⟩ := by rw [decode, hdecode]; rfl
    rw [hb]
    exact .bind (.lift hentity) (.pure _)

/-- An action fails as it does on the durable store, or makes of the relations what it makes of that. -/
theorem does_apply (table : String) (a : BatchAction) :
    match DurableStore.applyAction table s.rows a with
    | .error e => Does D path (standing r) (apply table a) (.error e) (standing r)
    | .ok rows => ∃ after : Relations, after.Encodes E { s with rows } ∧
        Does D path (standing r) (apply table a) (.ok ()) (standing after) := by
  have hload := does_loadRow hserves h table a.entity.key
  rw [DurableStore.applyAction]
  rcases hresolve : a.resolve table (DurableStore.loadRow s.rows table a.entity.key) with e | ⟨row | -⟩
  · exact .bind hload (.bind_error (.lift hresolve) _)
  · obtain ⟨b, hencode, hdecode⟩ := D.decode_encode row.properties
    have hbytes : encode E row.properties = .ok b := by rw [encode, hencode]; rfl
    refine ⟨_, h.upsertRow hdecode table row.key, .bind hload (.bind (.lift hresolve) ?_)⟩
    exact .bind (.lift hbytes) (hserves r (.upsertRow table row.key b))
  · refine ⟨_, h.deleteRow table a.entity.key, .bind hload (.bind (.lift hresolve) ?_)⟩
    exact hserves r (.deleteRow table a.entity.key)

omit h in
theorem does_applyAll (table : String) (actions : List BatchAction) (index : Nat) {r : Relations} {s : DurableStore}
    (h : r.Encodes E s) :
    match applyActions (DurableStore.applyAction table) index s.rows actions with
    | .error e => ∃ after, Does D path (standing r) (applyAll table index actions) (.error e) (standing after)
    | .ok rows => ∃ after : Relations, after.Encodes E { s with rows } ∧
        Does D path (standing r) (applyAll table index actions) (.ok ()) (standing after) := by
  induction actions generalizing index r s with
  | nil => exact ⟨r, h, .pure ()⟩
  | cons a rest ih =>
    have happly := does_apply hserves h table a
    rw [applyActions]
    rcases ha : DurableStore.applyAction table s.rows a with e | rows
    · rw [ha] at happly
      exact ⟨r, .bind_error (happly.adapt _) _⟩
    · rw [ha] at happly
      obtain ⟨mid, hmid, hdoes⟩ := happly
      have hrest := ih (index + 1) hmid
      simp only at hrest ⊢
      rcases hr : applyActions (DurableStore.applyAction table) (index + 1) rows rest with e | rows'
      · rw [hr] at hrest
        obtain ⟨after, hafter⟩ := hrest
        exact ⟨after, .bind (hdoes.adapt _) hafter⟩
      · rw [hr] at hrest
        obtain ⟨after, hencodes, hafter⟩ := hrest
        exact ⟨after, hencodes, .bind (hdoes.adapt _) hafter⟩

end

/-! ## calls -/

/-- What a call on the durable store answers if a page is made of no more rows than a fetch gets. -/
def fetched (s : DurableStore) : (q : Call) → Except StoreError q.Result
  | .queryPage table size after =>
    if s.registry.contains table then .ok (.ofRows size ((s.rowsPast table after).take (fetchCount size)))
    else .error (.tableNotFound table)
  | q => (TableStore.perform s q).1

section

variable {r : Relations} {s : DurableStore} (h : r.Encodes E s)

include h

/-- What a fetch gets is decoded to the rows past the position, as many as it can get. -/
theorem decode_selectPage (table : String) (size : Nat) (after : Option RowKey) :
    ((Statement.selectPage table after.isSome (after.getD ⟨"", ""⟩) (fetchLimit size)).answer r).map
        (fun x => decode E x.1 x.2) = ((s.rowsPast table after).take (fetchCount size)).map .ok := by
  have hrows := congrArg (List.map Prod.snd)
    (h.decode_filter fun a => a.table == table && a.key.isPast after.isSome (after.getD ⟨"", ""⟩))
  rw [List.map_map, List.map_map] at hrows
  rw [Statement.answer, limited_fetchLimit, List.map_take, List.map_take, List.map_map, DurableStore.rowsPast,
    List.map_map]
  exact congrArg (List.take (fetchCount size)) hrows

theorem does_queryPage (table : String) (size : Nat) (after : Option RowKey) :
    Does D path (.idle r) (queryPage table size after) (fetched s (.queryPage table size after)) (.idle r) := by
  have hrequire := does_requireTable (serves_idle D path) h table
  have hfetch := serves_idle D path r
    (.selectPage table after.isSome (after.getD ⟨"", ""⟩) (fetchLimit size))
  rw [fetched]
  by_cases hc : s.registry.contains table = true
  · rw [if_pos hc] at hrequire ⊢
    have hrows := decode_selectPage h table size after
    obtain ⟨raw, hraw⟩ : ∃ raw, (Statement.selectPage table after.isSome (after.getD ⟨"", ""⟩) (fetchLimit size)).answer
      r = raw := ⟨_, rfl⟩
    rw [hraw] at hfetch hrows
    have hlength : raw.length = ((s.rowsPast table after).take (fetchCount size)).length := by
      simpa using congrArg List.length hrows
    have hentities := congrArg (List.take size) hrows
    rw [← List.map_take, ← List.map_take, ← List.forall₂_eq_eq_eq, List.forall₂_map_left_iff,
      List.forall₂_map_right_iff] at hentities
    refine .bind hrequire (.bind hfetch (.bind (.mapM (hentities.imp fun _ _ h => .lift h)) ?_))
    rw [hlength]
    exact .pure _
  · rw [if_neg hc] at hrequire ⊢
    exact .bind_error hrequire _

theorem does_submitBatch (table partition : String) (actions : List BatchAction) :
    ∃ after : Relations, after.Encodes E (s.submitBatch table partition actions).2 ∧
      Does D path (.idle r) (call (.submitBatch table partition actions)) (s.submitBatch table partition actions).1
        (.idle after) ∧
      ∀ e, (s.submitBatch table partition actions).1 = .error e → after = r := by
  have hrequire := does_requireTable (serves_idle D path) h table
  have hall := does_applyAll (serves_within D path r) table actions 0 h
  rw [DurableStore.submitBatch]
  rcases hcheck : checkBatch partition actions with e | ⟨⟩
  · exact ⟨r, h, .bind_error (.lift hcheck) _, fun _ _ => rfl⟩
  · by_cases hc : s.registry.contains table = true
    · simp only [if_pos hc] at hrequire ⊢
      rcases ha : applyActions (DurableStore.applyAction table) 0 s.rows actions with e | rows
      · rw [ha] at hall
        obtain ⟨_, hfails⟩ := hall
        exact ⟨r, h, .bind (.lift hcheck) (.bind hrequire (.transaction_error hfails)), fun _ _ => rfl⟩
      · rw [ha] at hall
        obtain ⟨after, hafter, hdoes⟩ := hall
        refine ⟨after, hafter, .bind (.lift hcheck) (.bind hrequire (.transaction hdoes)), ?_⟩
        intro _ he
        cases he
    · simp only [if_neg hc] at hrequire ⊢
      exact ⟨r, h, .bind (.lift hcheck) (.bind_error hrequire _), fun _ _ => rfl⟩

/-- A call answers as the durable store does, and leaves relations that encode what that leaves; the same ones if it is
    refused. -/
theorem does_call (q : Call) :
    ∃ after : Relations, after.Encodes E (TableStore.perform s q).2 ∧
      Does D path (.idle r) (call q) (fetched s q) (.idle after) ∧ ∀ e, fetched s q = .error e → after = r := by
  cases q with
  | ensureTable table =>
    refine ⟨_, h.insertName table, serves_idle D path r (.insertName table), ?_⟩
    intro _ he
    cases he
  | deleteTable table =>
    refine ⟨_, h.deleteTable table,
      .transaction (.bind (serves_within D path r r (.deleteRows table))
        (serves_within D path r _ (.deleteName table))), ?_⟩
    intro _ he
    cases he
  | getEntity table key =>
    have hrequire := does_requireTable (serves_idle D path) h table
    refine ⟨r, h, ?_, fun _ _ => rfl⟩
    show Does D path _ _ (s.getEntity table key) _
    rw [DurableStore.getEntity]
    by_cases hc : s.registry.contains table = true
    · rw [if_pos hc] at hrequire ⊢
      exact .bind hrequire (does_loadRow (serves_idle D path) h table key)
    · rw [if_neg hc] at hrequire ⊢
      exact .bind_error hrequire _
  | submitBatch table partition actions => exact does_submitBatch h table partition actions
  | queryPage table size after => exact ⟨r, h, does_queryPage h table size after, fun _ _ => rfl⟩

end

/-! ## stores -/

def Holds (D : E.Documented) (path : Option String) (d : SqliteStore E) (r : Relations) : Prop :=
  D.Stands d.connection path (.idle r)

/-- The statements tell the relations, so a store has no others. -/
theorem Holds.unique {d : SqliteStore E} {r s : Relations} (hr : d.Holds D path r) (hs : d.Holds D path s) : r = s := by
  have hanswer : ∀ q : Statement, q.answer r = q.answer s := by
    intro q
    obtain ⟨c, hon, -⟩ := D.execute hr q
    obtain ⟨c', hon', -⟩ := D.execute hs q
    exact Except.ok.inj (congrArg Prod.fst (hon.symm.trans hon'))
  have hnames : r.names = s.names := by
    apply SortedMap.ext_get?
    intro table
    have := hanswer (.selectName table)
    rcases hr : r.names.get? table with _ | ⟨⟩ <;> rcases hs : s.names.get? table with _ | ⟨⟩ <;>
      simp [Statement.answer, hr, hs] at this ⊢
  have hrows : r.rows = s.rows := by
    apply SortedMap.ext_get?
    intro a
    exact hanswer (.selectRow a.table a.key)
  cases r
  cases s
  simp only at hnames hrows
  rw [hnames, hrows]

theorem Holds.perform {d : SqliteStore E} {r : Relations} {s : DurableStore} (hd : d.Holds D path r)
    (h : r.Encodes E s) (q : Call) :
    ∃ after, (TableStore.perform d q).2.Holds D path after ∧ after.Encodes E (TableStore.perform s q).2 ∧
      (TableStore.perform d q).1 = fetched s q ∧ ∀ e, fetched s q = .error e → after = r := by
  obtain ⟨after, hafter, hdoes, hback⟩ := does_call h q
  obtain ⟨c, hon, hc⟩ := hdoes.run hd
  have hperform : TableStore.perform d q = (fetched s q, ⟨c⟩) := by
    simp only [TableStore.perform, SqliteStore.on, hon]
  rw [hperform]
  exact ⟨after, hc, hafter, rfl, hback⟩

/-! ## opening and closing -/

theorem prepare_of_opened {c : E.Connection} {r : Option Relations} (hc : D.Stands c path (.opened r))
    (config : SqliteConfig) : ∃ d, prepare config c = .ok d ∧ d.Holds D path (r.getD .empty) := by
  have hdoes : Does D path (.opened r) (do ask (E.configure config.journal config.busyTimeout); ask E.createRelations)
      (.ok ()) (.idle (r.getD .empty)) :=
    .bind (.ask fun hc => D.configure hc _ _) (.ask D.createRelations)
  obtain ⟨d, hon, hd⟩ := hdoes.run hc
  exact ⟨⟨d⟩, by simp only [prepare, hon], hd⟩

theorem openWithConfig_of_keeps {w : E.World} {path : String} {r : Option Relations} (h : D.Keeps w path r)
    (config : SqliteConfig) :
    ∃ d, openWithConfig w path config = .ok d ∧ d.Holds D (some path) (r.getD .empty) := by
  obtain ⟨c, hopen, hc⟩ := D.openPath h
  obtain ⟨d, hprepare, hd⟩ := prepare_of_opened hc config
  exact ⟨d, by rw [openWithConfig, hopen]; exact hprepare, hd⟩

theorem openInMemory_holds (D : E.Documented) (w : E.World) :
    ∃ d, openInMemory w = .ok d ∧ d.Holds D none .empty := by
  obtain ⟨c, hopen, hc⟩ := D.openInMemory w
  obtain ⟨d, hprepare, hd⟩ := prepare_of_opened hc .default
  exact ⟨d, by rw [openInMemory, hopen]; exact hprepare, hd⟩

theorem Holds.reopen {path : String} {d : SqliteStore E} {r : Relations} (hd : d.Holds D (some path) r)
    (config : SqliteConfig) : ∃ e, d.reopen path config = .ok e ∧ e.Holds D (some path) r :=
  openWithConfig_of_keeps (D.close hd) config

/-- Stores that were empty when they were opened and have answered calls since, by the path if they have one. Such a
    one may have been closed and opened again in between. -/
inductive InUse (D : E.Documented) : Option String → SqliteStore E → Prop
  | inMemory {w : E.World} {d : SqliteStore E} (h : openInMemory w = .ok d) : InUse D none d
  | opened {w : E.World} {path : String} {config : SqliteConfig} {d : SqliteStore E} (hk : D.Keeps w path none)
      (h : openWithConfig w path config = .ok d) : InUse D (some path) d
  | called {path : Option String} {d : SqliteStore E} (h : InUse D path d) (q : Call) :
      InUse D path (TableStore.perform d q).2
  | reopened {path : String} {config : SqliteConfig} {d e : SqliteStore E} (h : InUse D (some path) d)
      (hr : d.reopen path config = .ok e) : InUse D (some path) e

/-- A store in use has relations, which encode a durable store that calls lead to. -/
theorem InUse.holds {d : SqliteStore E} (h : InUse D path d) :
    ∃ r s, d.Holds D path r ∧ r.Encodes E s ∧ ReachableFrom DurableStore.empty s := by
  induction h with
  | @inMemory w _ h =>
    obtain ⟨d, hopen, hd⟩ := openInMemory_holds D w
    cases hopen.symm.trans h
    exact ⟨_, _, hd, .empty, .refl⟩
  | @opened w path config _ hk h =>
    obtain ⟨d, hopen, hd⟩ := openWithConfig_of_keeps hk config
    cases hopen.symm.trans h
    exact ⟨_, _, hd, .empty, .refl⟩
  | called _ q ih =>
    obtain ⟨r, s, hd, he, hs⟩ := ih
    obtain ⟨after, hafter, hencodes, -, -⟩ := hd.perform he q
    exact ⟨after, _, hafter, hencodes, hs.call q⟩
  | @reopened path config _ _ _ hr ih =>
    obtain ⟨r, s, hd, he, hs⟩ := ih
    obtain ⟨e, hreopen, hheld⟩ := hd.reopen config
    cases hreopen.symm.trans hr
    exact ⟨r, s, hheld, he, hs⟩

end SqliteStore

/-! ## pages that can be fetched -/

theorem EntityPage.ofRows_take {size n : Nat} (h : size < n) (rows : List Entity) :
    EntityPage.ofRows size (rows.take n) = .ofRows size rows := by
  have htake : (rows.take n).take size = rows.take size := by rw [List.take_take, Nat.min_eq_left h.le]
  have hmore : size < (rows.take n).length ↔ size < rows.length := by rw [List.length_take]; omega
  simp only [EntityPage.ofRows, htake, hmore]

/-- Whether a fetch can get what a call asks tables like these for: the page is less than the greatest integer of 64
    bits, or the table has no more rows than that. Memory that is addressed by 64 bits has no room for a table of
    more. -/
def Call.Fits (m : MemoryStore) : Call → Prop
  | .queryPage table size _ => size + 1 < int64Half ∨ (m.rowsOf table).size < int64Half
  | .ensureTable _ | .deleteTable _ | .getEntity .. | .submitBatch .. => True

theorem DurableStore.length_rowsPast_le {s : DurableStore} {table : String} (h : s.registry.contains table = true)
    (after : Option RowKey) : (s.rowsPast table after).length ≤ (s.view.rowsOf table).size := by
  have hrows : s.view.rowsOf table = rowsIn s.rows table := by
    rcases s.contains_view table with ⟨-, ht⟩ | ⟨hc, -⟩
    · rw [MemoryStore.rowsOf, ht]
      rfl
    · cases h.symm.trans hc
  rw [rowsPast_view, List.length_map, hrows]
  cases after with
  | none => exact Nat.le_refl _
  | some k => exact List.length_filter_le _ _

theorem SqliteStore.fetched_of_fits {s : DurableStore} {q : Call} (h : q.Fits s.view) :
    fetched s q = (TableStore.perform s q).1 := by
  cases q with
  | ensureTable | deleteTable | getEntity | submitBatch => rfl
  | queryPage table size after =>
    show fetched s (.queryPage table size after) = s.queryPage table size after
    rw [fetched, DurableStore.queryPage]
    by_cases hc : s.registry.contains table = true
    · rw [if_pos hc, if_pos hc, fetchCount]
      by_cases hsize : size + 1 < int64Half
      · rw [Nat.min_eq_left (by omega), EntityPage.ofRows_take (Nat.lt_succ_self size)]
      · have hrows : (s.rowsPast table after).length < int64Half :=
          Nat.lt_of_le_of_lt (DurableStore.length_rowsPast_le hc after) (h.resolve_left hsize)
        rw [List.take_of_length_le (by omega)]
    · rw [if_neg hc, if_neg hc]

end TableMigrations
