/-
  TableMigrations.Proofs.Atomicity — a batch is done as a whole or not at all, and stays within its partition.

  Why a batch is refused is told from the tables alone (`BatchRefusal`): by its size, by an action of another partition,
  for want of its table, or for its first action that finds its row as it may not be. What is done is told by `Carried`:
  in the partition the writes in order, and nothing elsewhere. Both hold of memory stores and of databases in use, which
  leave nothing of a batch that is refused (`batches_atomic`).
-/
import TableMigrations.Files.Database
import TableMigrations.Proofs.Agreement

namespace TableMigrations

/-! ## refused and done -/

/-- Why a store with these tables refuses a batch. Of several reasons the first in this order counts, of several actions
    the first. -/
inductive BatchRefusal (m : MemoryStore) (table partition : String) (actions : List BatchAction) : StoreError → Prop
  | tooLarge (hs : 100 < actions.length) : BatchRefusal m table partition actions (.batchTooLarge actions.length 100)
  | astray {before after : List BatchAction} {a : BatchAction} (hs : actions.length ≤ 100)
      (hcut : actions = before ++ a :: after) (hb : ∀ b ∈ before, b.partition = partition)
      (ha : a.partition ≠ partition) :
      BatchRefusal m table partition actions (.partitionMismatch partition a.partition)
  | missing (hs : actions.length ≤ 100) (hp : ∀ a ∈ actions, a.partition = partition)
      (ht : m.tables.get? table = none) : BatchRefusal m table partition actions (.tableNotFound table)
  | row {rows mid : Rows} {before : List BatchAction} {a : BatchAction} (hs : actions.length ≤ 100)
      (hp : ∀ a ∈ actions, a.partition = partition) (ht : m.tables.get? table = some rows)
      (hstop : rows.StopsAt actions before a mid) :
      BatchRefusal m table partition actions (.batchRejected before.length (a.refusal table))

/-- What a batch that is done makes of the tables: within its partition its writes one after another, and elsewhere
    nothing. -/
structure Carried (m after : MemoryStore) (table partition : String) (actions : List BatchAction) : Prop where
  accepted : actions.length ≤ 100 ∧ ∀ a ∈ actions, a.partition = partition
  rows : ∃ rows written, m.tables.get? table = some rows ∧ after.tables.get? table = some written ∧
    Rows.writeAll (rows.filterKeys (·.partition == partition)) actions =
      some (written.filterKeys (·.partition == partition)) ∧
    ∀ k, k.partition ≠ partition → written.get? k = rows.get? k
  tables : ∀ u, u ≠ table → after.tables.get? u = m.tables.get? u

/-- What a store with tables `m` answers to a batch, and what tables it has then: `m` again if the batch is refused. -/
structure AllOrNothing (m after : MemoryStore) (answer : Except StoreError Unit) (table partition : String)
    (actions : List BatchAction) : Prop where
  refused : ∀ e, answer = .error e ↔ BatchRefusal m table partition actions e
  unchanged : ∀ e, answer = .error e → after = m
  carried : answer = .ok () → Carried m after table partition actions

/-! ## the checks -/

theorem checkBatch_eq_error_iff {p : String} {actions : List BatchAction} {e : StoreError} :
    checkBatch p actions = .error e ↔
      (100 < actions.length ∧ e = .batchTooLarge actions.length 100) ∨
        (actions.length ≤ 100 ∧ ∃ before a after, actions = before ++ a :: after ∧ (∀ b ∈ before, b.partition = p) ∧
          a.partition ≠ p ∧ e = .partitionMismatch p a.partition) := by
  unfold checkBatch
  split
  next hs =>
    have hs : 100 < actions.length := hs
    constructor
    · intro h
      cases h
      exact Or.inl ⟨hs, rfl⟩
    · rintro (⟨-, rfl⟩ | ⟨hle, -⟩)
      · rfl
      · omega
  next hs =>
    have hs : actions.length ≤ 100 := Nat.le_of_not_lt hs
    split
    next stray hfind =>
      obtain ⟨hne, before, after, hcut, hbefore⟩ := List.find?_eq_some_iff_append.mp hfind
      have hbefore : ∀ b ∈ before, b.partition = p := by
        intro b hb
        simpa using hbefore b hb
      constructor
      · intro h
        cases h
        exact Or.inr ⟨hs, before, stray, after, hcut, hbefore, by simpa using hne, rfl⟩
      · rintro (⟨hlt, -⟩ | ⟨-, before', a, after', hcut', hbefore', ha, rfl⟩)
        · omega
        · have hfind' : actions.find? (·.partition != p) = some a := by
            refine List.find?_eq_some_iff_append.mpr ⟨by simpa using ha, before', after', hcut', ?_⟩
            intro b hb
            simpa using hbefore' b hb
          cases hfind.symm.trans hfind'
          rfl
    next hnone =>
      constructor
      · intro h; cases h
      · rintro (⟨hlt, -⟩ | ⟨-, before, a, after, rfl, -, ha, -⟩)
        · omega
        · have := List.find?_eq_none.mp hnone a (by simp)
          exact absurd (by simpa using this) ha

theorem BatchRefusal.check {m : MemoryStore} {table partition : String} {actions : List BatchAction} {e : StoreError}
    (hc : checkBatch partition actions = .error e) : BatchRefusal m table partition actions e := by
  rcases checkBatch_eq_error_iff.mp hc with ⟨hs, rfl⟩ | ⟨hs, before, a, after, hcut, hb, ha, rfl⟩
  · exact .tooLarge hs
  · exact .astray hs hcut hb ha

/-! ## memory stores -/

namespace MemoryStore

variable {m : MemoryStore} {table partition : String} {actions : List BatchAction}

theorem submitBatch_of_refusal {e : StoreError} (h : BatchRefusal m table partition actions e) :
    m.submitBatch table partition actions = (.error e, m) := by
  have hcheck : ∀ {e}, checkBatch partition actions = .error e →
      m.submitBatch table partition actions = (.error e, m) := by
    intro e hc
    simp only [submitBatch, hc]
  cases h with
  | tooLarge hs => exact hcheck (checkBatch_eq_error_iff.mpr (Or.inl ⟨hs, rfl⟩))
  | astray hs hcut hb ha =>
    exact hcheck (checkBatch_eq_error_iff.mpr (Or.inr ⟨hs, _, _, _, hcut, hb, ha, rfl⟩))
  | missing hs hp ht => simp only [submitBatch, checkBatch_eq_ok_iff.mpr ⟨hs, hp⟩, ht]
  | row hs hp ht hstop => exact submitBatch_of_stopsAt (checkBatch_eq_ok_iff.mpr ⟨hs, hp⟩) ht hstop

theorem refusal_or_carried (m : MemoryStore) (table partition : String) (actions : List BatchAction) :
    (∃ e, BatchRefusal m table partition actions e) ∨
      ∃ after, m.submitBatch table partition actions = (.ok (), after) ∧ Carried m after table partition actions := by
  rcases hc : checkBatch partition actions with e | ⟨⟩
  · exact Or.inl ⟨e, .check hc⟩
  · obtain ⟨hs, hp⟩ := checkBatch_eq_ok_iff.mp hc
    rcases ht : m.tables.get? table with _ | rows
    · exact Or.inl ⟨_, .missing hs hp ht⟩
    · rcases hw : Rows.writeAll rows actions with _ | written
      · obtain ⟨before, a, mid, hstop⟩ := Rows.exists_stopsAt hw
        exact Or.inl ⟨_, .row hs hp ht hstop⟩
      · obtain ⟨hwithin, hother⟩ := Rows.writeAll_partition hp hw
        refine Or.inr ⟨m.withRows table written, submitBatch_of_some hc ht hw, ?_⟩
        constructor
        case accepted => exact ⟨hs, hp⟩
        case rows => exact ⟨rows, written, ht, m.get?_withRows_self table written, hwithin, hother⟩
        case tables =>
          intro u hu
          rw [m.get?_withRows, if_neg hu]

theorem allOrNothing (m : MemoryStore) (table partition : String) (actions : List BatchAction) :
    AllOrNothing m (m.submitBatch table partition actions).2 (m.submitBatch table partition actions).1 table partition
      actions := by
  rcases m.refusal_or_carried table partition actions with ⟨e, he⟩ | ⟨after, hdone, hcarried⟩
  · have hrefused := submitBatch_of_refusal he
    constructor
    case refused =>
      intro e'
      constructor
      · intro h
        rw [hrefused] at h
        cases h
        exact he
      · intro he'
        exact congrArg Prod.fst (submitBatch_of_refusal he')
    case unchanged =>
      intro _ _
      rw [hrefused]
    case carried =>
      intro h
      rw [hrefused] at h
      cases h
  · constructor
    case refused =>
      intro e'
      constructor
      · intro h
        rw [hdone] at h
        cases h
      · intro he'
        exact congrArg Prod.fst (submitBatch_of_refusal he')
    case unchanged =>
      intro e h
      rw [hdone] at h
      cases h
    case carried =>
      intro _
      rw [hdone]
      exact hcarried

end MemoryStore

/-! ## databases -/

namespace SqliteStore

variable {E : Engine} {D : E.Documented} {path : Option String} {d : SqliteStore E}

theorem InUse.requests (h : InUse D path d) (requests : List Request) :
    InUse D path (Request.performAll d requests).2 := by
  induction requests generalizing d with
  | nil => exact h
  | cons r _ ih => exact ih (h.called r.made)

/-- A batch works on the relations as it does on the tables that they are, and leaves the very same relations if it is
    refused. -/
theorem InUse.allOrNothing (h : InUse D path d) (table partition : String) (actions : List BatchAction) :
    let done := TableStore.perform d (.submitBatch table partition actions)
    ∃ before after m n, d.Holds D path before ∧ before.AreOf E m ∧ done.2.Holds D path after ∧ after.AreOf E n ∧
      AllOrNothing m n done.1 table partition actions ∧ ∀ e, done.1 = .error e → after = before := by
  intro done
  obtain ⟨before, s, hd, he, hs⟩ := h.holds
  have hreg := DurableStore.registered_of_reachable hs
  obtain ⟨after, hd', he', hanswer, hback⟩ := hd.perform he (.submitBatch table partition actions)
  obtain ⟨hview, hleft, -, -⟩ := s.submitBatch_view table partition actions
  have hwhole := s.view.allOrNothing table partition actions
  rw [← hview, ← hleft] at hwhole
  have hanswer : done.1 = (s.submitBatch table partition actions).1 := hanswer
  refine ⟨before, after, s.view, _, hd, he.areOf hreg, hd', he'.areOf (hreg.perform _), ?_, ?_⟩
  · rw [hanswer]
    exact hwhole
  · intro e hrefused
    exact hback e (hanswer.symm.trans hrefused)

end SqliteStore

/-- On every state of a memory store and of a database in use a batch is done as a whole or not at all: it is refused
    for the first reason that there is, and then nothing at all has changed, or its partition's rows are what its writes
    make of them one after another, and every other row is as it was. A row that is merged over keeps the properties
    that are not written; one that is replaced keeps none. -/
theorem batches_atomic (table partition : String) (actions : List BatchAction) :
    (∀ m : MemoryStore,
      let done := TableStore.perform m (.submitBatch table partition actions)
      AllOrNothing m done.2 done.1 table partition actions) ∧
    (∀ (E : Engine) (D : E.Documented) (path : Option String) (d : SqliteStore E), SqliteStore.InUse D path d →
      let done := TableStore.perform d (.submitBatch table partition actions)
      ∃ before after m n, d.Holds D path before ∧ before.AreOf E m ∧ done.2.Holds D path after ∧ after.AreOf E n ∧
        AllOrNothing m n done.1 table partition actions ∧ ∀ e, done.1 = .error e → after = before) ∧
    ∀ row e : Entity,
      (∀ kind ∈ [ActionKind.updateMerge, .upsertMerge], ∃ merged, kind.rule e (some row) = some (some merged) ∧
        merged.key = row.key ∧ ∀ name, merged.get? name = (e.get? name).or (row.get? name)) ∧
      ∀ kind ∈ [ActionKind.updateReplace, .upsertReplace], kind.rule e (some row) = some (some e) := by
  refine ⟨fun m => m.allOrNothing table partition actions, fun _ _ _ _ h => h.allOrNothing table partition actions, ?_⟩
  intro row e
  simp only [List.forall_mem_cons]
  exact ⟨⟨⟨_, rfl, rfl, row.get?_merge e⟩, ⟨_, rfl, rfl, row.get?_merge e⟩, by simp⟩, rfl, rfl, by simp⟩

def servedRequests : List Request :=
  [.call (.ensureTable "t"), .call (.submitBatch "t" "p" [⟨.add, sampleRecord⟩])]

def servedDatabase : Database := (Request.performAll (.inMemory (.bare ["srv"])) servedRequests).2

def servedTables : MemoryStore := ⟨.ofList [("t", .ofList [(⟨"p", "r"⟩, sampleRecord)])]⟩

theorem servedDatabase_inUse : SqliteStore.InUse Files.documented none servedDatabase := by
  have hopen : SqliteStore.openInMemory (E := Files.engine) (FileTree.bare ["srv"]) =
      .ok (Database.inMemory (.bare ["srv"])) := rfl
  exact (SqliteStore.InUse.inMemory hopen).requests servedRequests

theorem servedDatabase_hasTablesOf : servedDatabase.HasTablesOf Files.documented none servedTables := by
  have hempty : SqliteStore.Matches Files.documented none (Database.inMemory (.bare ["srv"])) .empty :=
    SqliteStore.Holds.matches_empty ⟨rfl, .volatile _ _ _⟩
  have hserved := (hempty.performAll servedRequests ⟨trivial, trivial, trivial⟩).2.hasTablesOf
  have hmemory : (Request.performAll MemoryStore.empty servedRequests).2 = servedTables := by decide +kernel
  rw [hmemory] at hserved
  exact hserved

/-- A patch of the row, the deletion of a row that is not there, and an insertion over the row. -/
def spoiltBatch : List BatchAction :=
  [⟨.updateMerge, ⟨⟨"p", "r"⟩, .ofList [("b", .bool true)]⟩⟩, ⟨.delete, .bare ⟨"p", "x"⟩⟩, ⟨.add, sampleRecord⟩]

/-- The deletion is what the batch is refused for, and of the patch before it nothing is left. -/
theorem batches_atomic_spoilt :
    SqliteStore.InUse Files.documented none servedDatabase ∧
      (TableStore.perform servedDatabase (.submitBatch "t" "p" spoiltBatch)).1 =
        .error (.batchRejected 1 (.entityNotFound "t" ⟨"p", "x"⟩)) ∧
      ∃ r, servedDatabase.Holds Files.documented none r ∧ r.AreOf Files.engine servedTables ∧
        (TableStore.perform servedDatabase (.submitBatch "t" "p" spoiltBatch)).2.Holds Files.documented none r := by
  obtain ⟨r, after, m, n, hholds, hm, hholds', -, hatomic, hback⟩ :=
    (batches_atomic "t" "p" spoiltBatch).2.1 Files.engine Files.documented none servedDatabase servedDatabase_inUse
  obtain ⟨r', hr', hareOf⟩ := servedDatabase_hasTablesOf
  obtain rfl := hr'.unique hholds
  obtain rfl := hm.unique hareOf
  have ht : servedTables.tables.get? "t" = some (.ofList [(⟨"p", "r"⟩, sampleRecord)]) := by decide +kernel
  have hstop : Rows.StopsAt (.ofList [(⟨"p", "r"⟩, sampleRecord)]) spoiltBatch
      [⟨.updateMerge, ⟨⟨"p", "r"⟩, .ofList [("b", .bool true)]⟩⟩] ⟨.delete, .bare ⟨"p", "x"⟩⟩
      (.ofList [(⟨"p", "r"⟩, ⟨⟨"p", "r"⟩, .ofList [("a", .int64 1), ("b", .bool true)]⟩)]) :=
    ⟨⟨[⟨.add, sampleRecord⟩], rfl⟩, by decide +kernel, by decide +kernel⟩
  have hrefused := (hatomic.refused _).mpr (.row (by decide) (by decide) ht hstop)
  obtain rfl := hback _ hrefused
  exact ⟨servedDatabase_inUse, hrefused, _, hholds, hm, hholds'⟩

end TableMigrations
