/-
  TableMigrations.Proofs.History — a migration is recorded exactly when it has been applied in full.

  `visit_cases` says what a migration's turn does to the ledger's table: nothing if it is found there or fails, and one
  new record if it is applied. Migration by migration, either all are recorded in the end or those before one that
  fails and no other (`account_cases`, `turns_cases`).
-/
import TableMigrations.Proofs.Account
import TableMigrations.Proofs.Discovery

namespace TableMigrations

/-! ## a migration's turn and the ledger -/

section

variable {σ η : Type} [TableStore σ] [TableStore η]

theorem isShared_replay (cond : Conditions) (made : Nat) (stores : Stores σ η) (calls : List (Target × Call)) :
    (stores.replay cond made calls).isShared = stores.isShared := by
  induction calls generalizing stores made with
  | nil => rfl
  | cons x r ih => rw [Stores.replay, ih, Stores.isShared_performUnder]

theorem isShared_execute (cond : Conditions) (limits : Limits) (ops : List Operation) (stores : Stores σ η) :
    (execute cond limits ops stores).stores.isShared = stores.isShared := by
  have hstores : (execute cond limits ops stores).stores =
      stores.replay cond 0 (execute cond limits ops stores).calls :=
    follow_stores (fun _ _ => .error .notFound) cond _ ⟨0, stores, Execution.start limits ops⟩
  rw [hstores, isShared_replay]

theorem isShared_run (text : String → Except FileError String) (cond : Conditions) (options : Options)
    (migrations : List MigrationFile) (stores : Stores σ η) :
    (run (fun _ => text) cond options migrations stores).stores.isShared = stores.isShared := by
  have hstores : (run (fun _ => text) cond options migrations stores).stores =
      stores.replay cond 0 (run (fun _ => text) cond options migrations stores).calls :=
    follow_stores (fun _ => text) cond _ ⟨0, stores, Run.start options migrations⟩
  rw [hstores, isShared_replay]

end

section

variable {σ η : Type} [TableStore σ] [TableStore η] [MemoryLike σ] [MemoryLike η]

theorem view_lookup {stores : Stores σ η} (h : stores.Reachable) (table : String) (key : RowKey) :
    (stores.perform .ledger (.getEntity table key)).2.view = stores.view := by
  rw [Stores.perform_view h]
  cases stores <;> rfl

/-- An execution depends on the stores only by what they read as. -/
theorem execute_congr (cond : Conditions) (limits : Limits) (ops : List Operation) {s s' : Stores σ η} (h : s.Reachable)
    (h' : s'.Reachable) (hv : s.view = s'.view) :
    (execute cond limits ops s).calls = (execute cond limits ops s').calls ∧
      (execute cond limits ops s).outcome = (execute cond limits ops s').outcome := by
  have heq : (execute cond limits ops s).view = (execute cond limits ops s').view := by
    rw [(execute_view cond limits ops h).1, (execute_view cond limits ops h').1, hv]
  exact ⟨congrArg (fun c : Course MemoryStore MemoryStore Stats => c.calls) heq,
    congrArg (fun c : Course MemoryStore MemoryStore Stats => c.outcome) heq⟩

/-- What an unrecorded migration fails with on these stores, and the calls that are made for it: it cannot be read or
    parsed, and only the ledger has been asked for it; or its execution fails. -/
def FailsWith (text : String → Except FileError String) (options : Options) (stores : Stores σ η) (m : MigrationFile)
    (cause : MigrateError) (calls : List (Target × Call)) : Prop :=
  let lookup : Target × Call := (.ledger, .getEntity options.historyTable (historyKey m.id))
  (m.operations (text m.path) = .error cause ∧ calls = [lookup]) ∨
    ∃ ops, m.operations (text m.path) = .ok ops ∧
      (execute .calm options.limits ops stores).outcome = some (.error cause) ∧
      calls = lookup :: (execute .calm options.limits ops stores).calls

variable {text : String → Except FileError String} {options : Options} {m : MigrationFile}

/-- What is asked of an unrecorded migration: its operations leave the ledger alone. -/
def Unobtrusive (text : String → Except FileError String) (stores : Stores σ η) (table : String) (m : MigrationFile) :
    Prop :=
  ∀ ops, m.operations (text m.path) = .ok ops → LeavesLedger stores table ops

/-- What a migration's turn makes of the ledger's table. -/
theorem visit_ledgerTable {stores : Stores σ η} (h : stores.Reachable) {rows : Rows}
    (ht : stores.ledgerTable options.historyTable = some rows)
    (hl : rows.get? (historyKey m.id) = none → Unobtrusive text stores options.historyTable m) :
    (visit text options stores m).stores.isShared = stores.isShared ∧
      ((rows.get? (historyKey m.id) ≠ none ∧ (visit text options stores m).outcome = some (.ok false) ∧
          (visit text options stores m).stores.ledgerTable options.historyTable = some rows) ∨
        (rows.get? (historyKey m.id) = none ∧ (visit text options stores m).outcome = some (.ok true) ∧
          (visit text options stores m).stores.ledgerTable options.historyTable =
            some (rows.insert (historyKey m.id) (historyRecord m.id))) ∨
        (rows.get? (historyKey m.id) = none ∧ ∃ cause, (visit text options stores m).outcome = some (.error cause) ∧
          FailsWith text options stores m cause (visit text options stores m).calls ∧
          (visit text options stores m).stores.ledgerTable options.historyTable = some rows)) := by
  obtain ⟨hanswer, hafter⟩ := Stores.lookup_ledgerTable h options.historyTable (historyKey m.id)
  have hreach := h.perform .ledger (.getEntity options.historyTable (historyKey m.id))
  have hview := view_lookup h options.historyTable (historyKey m.id)
  have hshared := stores.isShared_perform .ledger (.getEntity options.historyTable (historyKey m.id))
  rw [ht] at hanswer hafter
  obtain ⟨after, ha⟩ : ∃ after,
    (stores.perform .ledger (.getEntity options.historyTable (historyKey m.id))).2 = after := ⟨_, rfl⟩
  rw [ha] at hafter hreach hview hshared
  have hp : stores.perform .ledger (.getEntity options.historyTable (historyKey m.id)) =
    (.ok (rows.get? (historyKey m.id)), after) := Prod.ext hanswer ha
  simp only [visit, hp]
  rcases hr : rows.get? (historyKey m.id) with _ | row
  · rcases hops : m.operations (text m.path) with e | ops
    · exact ⟨hshared, Or.inr (Or.inr ⟨rfl, e, rfl, Or.inl ⟨hops, rfl⟩, hafter⟩)⟩
    · have hleaves : LeavesLedger after options.historyTable ops := by
        intro hs
        rw [hshared] at hs
        exact hl hr ops hops hs
      have hledger := ledgerTable_execute .calm options.limits hreach hleaves
      have hexec := isShared_execute .calm options.limits ops after
      obtain ⟨-, hreach'⟩ := execute_view .calm options.limits ops hreach
      obtain ⟨hcalls, houtcome⟩ := execute_congr .calm options.limits ops hreach h hview
      rw [hafter] at hledger
      simp only [applyAndRecord, Course.after]
      rcases execute_ends (Limits.within_sound options.maxBatchSize options.pageSize) ops hreach with
        ⟨stats, hx, -⟩ | ⟨e, hx⟩
      · have hx : (execute .calm options.limits ops after).outcome = some (.ok stats) := hx
        obtain ⟨hok, hrecorded⟩ := Stores.record_ledgerTable hreach' options.historyTable hledger hr
        have hsame := (execute .calm options.limits ops after).stores.isShared_perform .ledger
          (recordCall options.historyTable (historyRecord m.id))
        simp only [hx]
        refine ⟨hsame.trans (hexec.trans hshared), Or.inr (Or.inl ⟨trivial, ?_, hrecorded⟩)⟩
        rw [hok]
      · have hx : (execute .calm options.limits ops after).outcome = some (.error (.store e)) := hx
        simp only [hx]
        refine ⟨hexec.trans hshared, Or.inr (Or.inr ⟨trivial, _, rfl, Or.inr ⟨ops, hops, ?_, ?_⟩, hledger⟩)⟩
        · rw [← houtcome, hx]
        · rw [← hcalls]; rfl
  · exact ⟨hshared, Or.inl ⟨by simp, rfl, hafter⟩⟩

/-- The records after are those before and these. -/
def Recorded (table : String) (before after : Stores σ η) (ids : List String) : Prop :=
  ∀ id, after.records table id = true ↔ before.records table id = true ∨ id ∈ ids

theorem records_of_ledgerTable {stores : Stores σ η} (h : stores.Reachable) {table : String} {rows : Rows}
    (ht : stores.ledgerTable table = some rows) (id : String) :
    stores.records table id = (rows.get? (historyKey id)).isSome := by
  rw [Stores.records_eq h, ht, Option.bind_some]

theorem recorded_none {before after : Stores σ η} (hb : before.Reachable) (ha : after.Reachable) {table : String}
    (ht : after.ledgerTable table = before.ledgerTable table) : Recorded table before after [] := by
  intro id
  rw [Stores.records_eq ha, Stores.records_eq hb, ht]
  simp

theorem recorded_one {before after : Stores σ η} (hb : before.Reachable) (ha : after.Reachable) {table id : String}
    {rows : Rows} (ht : before.ledgerTable table = some rows)
    (ht' : after.ledgerTable table = some (rows.insert (historyKey id) (historyRecord id))) :
    Recorded table before after [id] := by
  intro j
  rw [records_of_ledgerTable hb ht, records_of_ledgerTable ha ht', List.mem_singleton]
  by_cases hj : j = id
  · subst hj
    simp [SortedMap.get?_insert_self]
  · have hkey : historyKey j ≠ historyKey id := by
      intro he
      exact hj (congrArg RowKey.row he)
    rw [SortedMap.get?_insert_ne _ _ hkey]
    simp [hj]

omit [MemoryLike σ] [MemoryLike η] in
theorem Recorded.trans {table : String} {a b c : Stores σ η} {ids more : List String} (h : Recorded table a b ids)
    (h' : Recorded table b c more) : Recorded table a c (ids ++ more) := by
  intro id
  rw [h' id, h id, List.mem_append, or_assoc]

omit [MemoryLike σ] [MemoryLike η] in
theorem Recorded.cons {table id : String} {before after : Stores σ η} {ids : List String}
    (h : Recorded table before after ids) (hid : before.records table id = true) :
    Recorded table before after (id :: ids) := by
  intro j
  rw [h j, List.mem_cons]
  constructor
  · rintro (hj | hj)
    · exact Or.inl hj
    · exact Or.inr (Or.inr hj)
  · rintro (hj | rfl | hj)
    · exact Or.inl hj
    · exact Or.inl hid
    · exact Or.inr hj

omit [MemoryLike σ] [MemoryLike η] in
theorem Recorded.other {table id : String} {before after : Stores σ η} {ids : List String}
    (h : Recorded table before after ids) (hid : id ∉ ids) : after.records table id = before.records table id := by
  rw [Bool.eq_iff_iff, h id]
  constructor
  · rintro (hj | hj)
    · exact hj
    · exact absurd hj hid
  · intro hj; exact Or.inl hj

/-- A migration's turn skips it if it is in the ledger; else it adds its record, or fails and leaves the ledger
    alone. -/
theorem visit_cases {stores : Stores σ η} (h : stores.Reachable) (ht : stores.ledgerTable options.historyTable ≠ none)
    (hl : stores.records options.historyTable m.id = false → Unobtrusive text stores options.historyTable m) :
    (visit text options stores m).stores.ledgerTable options.historyTable ≠ none ∧
      (visit text options stores m).stores.isShared = stores.isShared ∧
      (((visit text options stores m).outcome = some (.ok (!stores.records options.historyTable m.id)) ∧
          Recorded options.historyTable stores (visit text options stores m).stores [m.id]) ∨
        (stores.records options.historyTable m.id = false ∧
          ∃ cause, (visit text options stores m).outcome = some (.error cause) ∧
            FailsWith text options stores m cause (visit text options stores m).calls ∧
            Recorded options.historyTable stores (visit text options stores m).stores [])) := by
  obtain ⟨rows, hrows⟩ := Option.ne_none_iff_exists'.mp ht
  have hreach := (visit_ends text options m h).1
  have hrecords := records_of_ledgerTable h hrows m.id
  have hsame : (visit text options stores m).stores.ledgerTable options.historyTable = some rows →
      Recorded options.historyTable stores (visit text options stores m).stores [] := by
    intro hafter
    exact recorded_none h hreach (hafter.trans hrows.symm)
  have hl : rows.get? (historyKey m.id) = none → Unobtrusive text stores options.historyTable m := by
    intro hr
    apply hl
    rw [hrecords, hr]; rfl
  obtain ⟨hshared, ⟨hr, ho, hafter⟩ | ⟨hr, ho, hafter⟩ | ⟨hr, cause, ho, hfails, hafter⟩⟩ :=
    visit_ledgerTable h hrows hl
  · have hr : stores.records options.historyTable m.id = true := by
      rw [hrecords]; exact Option.isSome_iff_ne_none.mpr hr
    exact ⟨by simp [hafter], hshared, Or.inl ⟨by rw [hr]; exact ho, (hsame hafter).cons hr⟩⟩
  · have hr : stores.records options.historyTable m.id = false := by rw [hrecords, hr]; rfl
    exact ⟨by simp [hafter], hshared, Or.inl ⟨by rw [hr]; exact ho, recorded_one h hreach hrows hafter⟩⟩
  · have hr : stores.records options.historyTable m.id = false := by rw [hrecords, hr]; rfl
    exact ⟨by simp [hafter], hshared, Or.inr ⟨hr, cause, ho, hfails, hsame hafter⟩⟩

/-! ## migrations one after another -/

/-- Where the turns come to a migration that fails: every turn before it ends well, and it is not recorded, but read or
    executed in vain; no call is made after its own. -/
def StopsAt (text : String → Except FileError String) (options : Options) (migrations : List MigrationFile)
    (summary : Summary) (stores : Stores σ η) (before : List MigrationFile) (m : MigrationFile)
    (cause : MigrateError) : Prop :=
  let soFar := account text options before summary stores
  (∃ s, soFar.outcome = some (.ok s)) ∧ ∃ calls, FailsWith text options soFar.stores m cause calls ∧
    (account text options migrations summary stores).calls = soFar.calls ++ calls ∧
    (account text options migrations summary stores).outcome = some (.error (.migration m.id cause))

omit [MemoryLike σ] [MemoryLike η] in
theorem StopsAt.cons {migrations before : List MigrationFile} {m' : MigrationFile} {cause : MigrateError}
    {summary : Summary} {stores : Stores σ η} {applied : Bool}
    (ho : (visit text options stores m).outcome = some (.ok applied))
    (h : StopsAt text options migrations (summary.add m.id applied) (visit text options stores m).stores before m'
      cause) :
    StopsAt text options (m :: migrations) summary stores (m :: before) m' cause := by
  obtain ⟨hs, calls, hfails, hcalls, houtcome⟩ := h
  simp only [StopsAt, account, ho]
  refine ⟨hs, calls, hfails, ?_, houtcome⟩
  show _ ++ _ = (_ ++ _) ++ _
  rw [hcalls, List.append_assoc]

/-- Migrations one after another either are all in the ledger in the end, or come to one that fails. Those found there
    are skipped and the others applied. -/
theorem account_cases (migrations : List MigrationFile) (summary : Summary) {stores : Stores σ η} (h : stores.Reachable)
    (ht : stores.ledgerTable options.historyTable ≠ none) (hn : (migrations.map (·.id)).Nodup)
    (hl : ∀ m ∈ migrations, stores.records options.historyTable m.id = false →
      Unobtrusive text stores options.historyTable m) :
    ((account text options migrations summary stores).outcome = some (.ok
          ⟨summary.applied ++ (migrations.filter (!stores.records options.historyTable ·.id)).map (·.id),
            summary.skipped ++ (migrations.filter (stores.records options.historyTable ·.id)).map (·.id)⟩) ∧
        Recorded options.historyTable stores (account text options migrations summary stores).stores
          (migrations.map (·.id))) ∨
      ∃ before m after cause, migrations = before ++ m :: after ∧ stores.records options.historyTable m.id = false ∧
        StopsAt text options migrations summary stores before m cause ∧
        Recorded options.historyTable stores (account text options migrations summary stores).stores
          (before.map (·.id)) := by
  induction migrations generalizing summary stores with
  | nil => exact Or.inl ⟨by simp [account], recorded_none h h rfl⟩
  | cons m r ih =>
    obtain ⟨hm, hr⟩ := List.nodup_cons.mp hn
    obtain ⟨hlm, hlr⟩ := List.forall_mem_cons.mp hl
    have hreach := (visit_ends text options m h).1
    obtain ⟨ht', hshared, hturn⟩ := visit_cases h ht hlm
    rcases hturn with ⟨ho, hrecorded⟩ | ⟨hrec, cause, ho, hfails, hrecorded⟩
    · have hsame : ∀ x ∈ r, (visit text options stores m).stores.records options.historyTable x.id =
          stores.records options.historyTable x.id := by
        intro x hx
        apply hrecorded.other
        intro he
        exact hm (List.mem_map.mpr ⟨x, hx, List.mem_singleton.mp he⟩)
      have hunobtrusive : ∀ x ∈ r, (visit text options stores m).stores.records options.historyTable x.id = false →
          Unobtrusive text (visit text options stores m).stores options.historyTable x := by
        intro x hx hxr ops hops hs
        rw [hsame x hx] at hxr
        rw [hshared] at hs
        exact hlr x hx hxr ops hops hs
      have hcons : account text options (m :: r) summary stores =
          (account text options r (summary.add m.id (!stores.records options.historyTable m.id))
            (visit text options stores m).stores).after (visit text options stores m).calls := by
        simp only [account, ho]
      rw [hcons]
      rcases ih (summary.add m.id (!stores.records options.historyTable m.id)) hreach ht' hr hunobtrusive with
        ⟨hall, hrecorded'⟩ | ⟨before, m', after, cause, rfl, hrec, hstops, hrecorded'⟩
      · refine Or.inl ⟨hall.trans ?_, hrecorded.trans hrecorded'⟩
        have hnot : ∀ x ∈ r, (!(visit text options stores m).stores.records options.historyTable x.id) =
            !stores.records options.historyTable x.id := by
          intro x hx
          rw [hsame x hx]
        rw [List.filter_congr hsame, List.filter_congr hnot]
        cases hm : stores.records options.historyTable m.id <;> simp [Summary.add, hm]
      · refine Or.inr ⟨m :: before, m', after, cause, rfl, ?_, hstops.cons ho, hrecorded.trans hrecorded'⟩
        rw [← hsame m' (List.mem_append_right _ List.mem_cons_self), hrec]
    · refine Or.inr ⟨[], m, r, cause, rfl, hrec, ⟨⟨summary, rfl⟩, _, hfails, ?_, ?_⟩, ?_⟩
      · simp only [account, ho]; rfl
      · simp only [account, ho]
      · simp only [account, ho]; exact hrecorded

/-! ## runs -/

/-- A run that succeeds: it skips the migrations that were recorded and applies the others, each in their order, and all
    of them are recorded. -/
structure Completed (table : String) (migrations : List MigrationFile) (stores final : Stores σ η) (summary : Summary) :
    Prop where
  skipped : summary.skipped = (migrations.filter (stores.records table ·.id)).map (·.id)
  applied : summary.applied = (migrations.filter (!stores.records table ·.id)).map (·.id)
  disjoint : ∀ id ∈ summary.applied, id ∉ summary.skipped
  complete : ∀ m ∈ migrations, m.id ∈ summary.applied ∨ m.id ∈ summary.skipped
  recorded : ∀ m ∈ migrations, final.records table m.id = true

/-- A run that stops at a migration: the turns before it end well and are recorded; it was not recorded, is read or
    executed in vain, and the last calls are its own; whether it and those after it are recorded stays as it was. -/
structure Stopped (text : String → Except FileError String) (options : Options) (stores : Stores σ η)
    (before : List MigrationFile) (m : MigrationFile) (after : List MigrationFile) (cause : MigrateError)
    (c : Course σ η Summary) : Prop where
  unrecorded : stores.records options.historyTable m.id = false
  fails : let soFar := turns text options before stores
    (∃ s, soFar.outcome = some (.ok s)) ∧
      ∃ calls, FailsWith text options soFar.stores m cause calls ∧ c.calls = soFar.calls ++ calls
  recorded : ∀ x ∈ before, c.stores.records options.historyTable x.id = true
  others : ∀ x ∈ m :: after, c.stores.records options.historyTable x.id = stores.records options.historyTable x.id

theorem records_ensureTable {stores : Stores σ η} (h : stores.Reachable) (table id : String) :
    (stores.perform .ledger (.ensureTable table)).2.records table id = stores.records table id := by
  rw [Stores.records_eq (h.perform .ledger (.ensureTable table)), Stores.records_eq h,
    (Stores.ensure_ledgerTable h table).2]
  cases stores.ledgerTable table <;> rfl

/-- Where the ledger's table is made sure of first, migrations one after another fare as they do in a ledger that has
    its table: all are recorded in the end, or those before one that fails. -/
theorem turns_cases (migrations : List MigrationFile) {stores : Stores σ η} (h : stores.Reachable)
    (hn : (migrations.map (·.id)).Nodup)
    (hl : ∀ m ∈ migrations, stores.records options.historyTable m.id = false →
      Unobtrusive text stores options.historyTable m) :
    ((turns text options migrations stores).outcome = some (.ok
          ⟨(migrations.filter (!stores.records options.historyTable ·.id)).map (·.id),
            (migrations.filter (stores.records options.historyTable ·.id)).map (·.id)⟩) ∧
        Recorded options.historyTable stores (turns text options migrations stores).stores (migrations.map (·.id))) ∨
      ∃ before m after cause, migrations = before ++ m :: after ∧
        (turns text options migrations stores).outcome = some (.error (.migration m.id cause)) ∧
        Stopped text options stores before m after cause (turns text options migrations stores) := by
  obtain ⟨opened, ho⟩ : ∃ opened, opened = (stores.perform .ledger (.ensureTable options.historyTable)).2 := ⟨_, rfl⟩
  have hopened : opened.Reachable := ho ▸ h.perform .ledger (.ensureTable options.historyTable)
  have hsame : ∀ id, opened.records options.historyTable id = stores.records options.historyTable id := by
    intro id
    rw [ho, records_ensureTable h]
  have hshared : opened.isShared = stores.isShared := by rw [ho, Stores.isShared_perform]
  have ht : opened.ledgerTable options.historyTable ≠ none := by
    rw [ho, (Stores.ensure_ledgerTable h options.historyTable).2]; simp
  have hl : ∀ m ∈ migrations, opened.records options.historyTable m.id = false →
      Unobtrusive text opened options.historyTable m := by
    intro m hm hr ops hops hs
    rw [hsame] at hr
    rw [hshared] at hs
    exact hl m hm hr ops hops hs
  have hfrom : ∀ {final : Stores σ η} {ids}, Recorded options.historyTable opened final ids →
      Recorded options.historyTable stores final ids := by
    intro final ids hr id
    rw [hr id, hsame]
  rw [turns, ← ho]
  rcases account_cases migrations ⟨[], []⟩ hopened ht hn hl with
    ⟨hall, hrecorded⟩ | ⟨before, m, after, cause, rfl, hrec, ⟨hs, calls, hfails, hcalls, houtcome⟩, hrecorded⟩
  · simp only [hsame, List.nil_append] at hall
    exact Or.inl ⟨hall, hfrom hrecorded⟩
  · refine Or.inr ⟨before, m, after, cause, rfl, houtcome, ?_⟩
    have hrecorded := hfrom hrecorded
    constructor
    · rw [← hsame]; exact hrec
    · rw [turns, ← ho]
      exact ⟨hs, calls, hfails, congrArg _ hcalls⟩
    · intro x hx
      exact (hrecorded x.id).mpr (Or.inr (List.mem_map_of_mem hx))
    · intro x hx
      apply hrecorded.other
      intro he
      rw [List.map_append, List.nodup_append] at hn
      exact hn.2.2 x.id he x.id (List.mem_map_of_mem hx) rfl

omit [MemoryLike σ] [MemoryLike η] in
theorem completed_of_recorded {table : String} {migrations : List MigrationFile} {stores final : Stores σ η}
    (hr : Recorded table stores final (migrations.map (·.id))) :
    Completed table migrations stores final
      ⟨(migrations.filter (!stores.records table ·.id)).map (·.id),
        (migrations.filter (stores.records table ·.id)).map (·.id)⟩ where
  skipped := rfl
  applied := rfl
  disjoint id ha hs := by
    obtain ⟨m, hm, rfl⟩ := List.mem_map.mp ha
    obtain ⟨m', hm', he⟩ := List.mem_map.mp hs
    have hm := (List.mem_filter.mp hm).2
    rw [← he, (List.mem_filter.mp hm').2] at hm
    cases hm
  complete m hm := by
    cases hr : stores.records table m.id
    · exact Or.inl (List.mem_map_of_mem (List.mem_filter.mpr ⟨hm, by rw [hr]; rfl⟩))
    · exact Or.inr (List.mem_map_of_mem (List.mem_filter.mpr ⟨hm, hr⟩))
  recorded m hm := (hr m.id).mpr (Or.inr (List.mem_map_of_mem hm))

/-- A migration is recorded if and only if it has been applied in full. A run takes the migrations of a directory in
    their order: one with a record is skipped, any other is read, executed and then recorded. Either all of them are
    in the ledger in the end, or the run stops at the first that fails. -/
theorem run_recorded_iff_applied (t : FileTree) (text : String → Except FileError String) (options : Options)
    {migrations : List MigrationFile} (hm : t.migrations options = .ok migrations) {stores : Stores σ η}
    (h : stores.Reachable)
    (hl : ∀ m ∈ migrations, stores.records options.historyTable m.id = false →
      Unobtrusive text stores options.historyTable m) :
    let c := run (fun _ => text) .calm options migrations stores
    (c = if migrations = [] then ⟨[], stores, some (.ok ⟨[], []⟩)⟩ else turns text options migrations stores) ∧
    ((∃ summary, c.outcome = some (.ok summary) ∧ Completed options.historyTable migrations stores c.stores summary) ∨
      ∃ before m after cause, migrations = before ++ m :: after ∧ c.outcome = some (.error (.migration m.id cause)) ∧
        Stopped text options stores before m after cause c) := by
  intro c
  have hc : c = _ := run_eq_turns text options migrations h
  refine ⟨hc, ?_⟩
  have hn : (migrations.map (·.id)).Nodup := nodup_ids hm
  by_cases hempty : migrations = []
  · rw [if_pos hempty] at hc
    subst hempty
    rw [hc]
    exact Or.inl ⟨_, rfl, completed_of_recorded (recorded_none h h rfl)⟩
  · rw [if_neg hempty] at hc
    rw [hc]
    rcases turns_cases migrations h hn hl with ⟨hall, hrecorded⟩ | hstopped
    · exact Or.inl ⟨_, hall, completed_of_recorded hrecorded⟩
    · exact Or.inr hstopped

end

def sameRowTwice : FileTree :=
  ⟨.ofList [(["m"], .directory), (["m", "1.mig"], .file 0), (["m", "2.mig"], .file 1)],
    #[.bytes "INSERT t p r".toUTF8, .bytes "INSERT t p r".toUTF8], []⟩

theorem operations_sameRowTwice (id name : String) {path : String} (h : path = "m/1.mig" ∨ path = "m/2.mig") :
    (⟨id, name, path⟩ : MigrationFile).operations (sameRowTwice.readText path) =
      .ok [⟨"t", .row .add (.bare ⟨"p", "r"⟩)⟩] := by
  have hread : sameRowTwice.readText path = .ok "INSERT t p r" := by
    rcases h with rfl | rfl <;> cbv
  rw [hread]
  rfl

/-- The second of them stops the run, and only the first is recorded. -/
theorem run_sameRowTwice :
    let migrations : List MigrationFile := [⟨"1", "1.mig", "m/1.mig"⟩, ⟨"2", "2.mig", "m/2.mig"⟩]
    let stores : Stores MemoryStore MemoryStore := .shared .empty
    let c := run (fun _ => sameRowTwice.readText) .calm (.ofDirectory "m") migrations stores
    sameRowTwice.migrations (.ofDirectory "m") = .ok migrations ∧ stores.Reachable ∧
      (∀ m ∈ migrations, stores.records "MigrationHistories" m.id = false →
        Unobtrusive sameRowTwice.readText stores "MigrationHistories" m) ∧
      ∃ before m after cause, migrations = before ++ m :: after ∧ c.outcome = some (.error (.migration m.id cause)) ∧
        Stopped sameRowTwice.readText (.ofDirectory "m") stores before m after cause c := by
  intro migrations stores c
  have hm : sameRowTwice.migrations (.ofDirectory "m") = .ok migrations := by cbv
  have hl : ∀ m ∈ migrations, stores.records "MigrationHistories" m.id = false →
      Unobtrusive sameRowTwice.readText stores "MigrationHistories" m := by
    intro m hm _ ops hops _ op hop
    have hpath : m.path = "m/1.mig" ∨ m.path = "m/2.mig" := by
      rcases List.mem_cons.mp hm with rfl | hm
      · exact Or.inl rfl
      · cases List.mem_singleton.mp hm; exact Or.inr rfl
    cases (operations_sameRowTwice m.id m.name hpath).symm.trans hops
    cases List.mem_singleton.mp hop
    decide
  have hr : stores.Reachable := ReachableFrom.refl
  refine ⟨hm, hr, hl, (run_recorded_iff_applied sameRowTwice sameRowTwice.readText _ hm hr hl).2.resolve_left ?_⟩
  rintro ⟨summary, ho, -⟩
  have hfailed : c.outcome.map (·.isOk) = some false := by
    have hc : c = _ := run_eq_turns sameRowTwice.readText (.ofDirectory "m") migrations hr
    rw [hc]
    simp only [migrations, turns, account, visit, operations_sameRowTwice "1" "1.mig" (Or.inl rfl),
      operations_sameRowTwice "2" "2.mig" (Or.inr rfl)]
    decide +kernel
  rw [show c.outcome = _ from ho] at hfailed
  cases hfailed

end TableMigrations
