/-
  TableMigrations.Proofs.Status — what is told of migrations, and what a run then makes of them.

  Telling which migrations have been applied asks the ledger for each of them and changes nothing (`status_eq`); without
  the ledger's table none has been. A run makes sure of that table first and asks the same, so what it skips and applies
  is what was told (`turns_completed`), as far as it comes; and what is told afterwards differs just by what the run has
  applied (`status_foretells`).
-/
import TableMigrations.Proofs.Rerun

namespace TableMigrations

section

variable {σ η : Type} [TableStore σ] [TableStore η]

def statusOf (stores : Stores σ η) (table : String) (migrations : List MigrationFile) : List MigrationStatus :=
  migrations.map fun m => ⟨m.id, m.path, stores.records table m.id⟩

variable [MemoryLike σ] [MemoryLike η]

/-! ## telling -/

section

variable [Transparent σ] [Transparent η] {stores : Stores σ η} (h : stores.Reachable)

include h

/-- One lookup tells of one migration, whether the ledger has its table or not. -/
theorem transition_told (files : FileReader σ) (table : String) (m : MigrationFile) (rest : List MigrationFile)
    (found : List MigrationStatus) (made : Nat) :
    Transition files .calm ⟨made, stores, (⟨table, m :: rest, found⟩ : Inspection)⟩
      [(.ledger, .getEntity table (historyKey m.id))]
      ⟨made + 1, stores, ⟨table, rest, found ++ [⟨m.id, m.path, stores.records table m.id⟩]⟩⟩ := by
  have hanswer := (Stores.lookup_ledgerTable h table (historyKey m.id)).1
  have hread : (stores.perform .ledger (.getEntity table (historyKey m.id))).2 = stores :=
    Stores.perform_read h .ledger rfl
  have hrecords := Stores.records_eq h table m.id
  rcases ht : stores.ledgerTable table with _ | rows
  · rw [ht] at hanswer hrecords
    rw [hrecords]
    exact .of_call rfl (Prod.ext hanswer hread) rfl
  · rw [ht] at hanswer hrecords
    rw [hrecords]
    exact .of_call rfl (Prod.ext hanswer hread) rfl

theorem path_told (files : FileReader σ) (table : String) (migrations : List MigrationFile)
    (found : List MigrationStatus) (made : Nat) :
    Path files .calm migrations.length ⟨made, stores, (⟨table, migrations, found⟩ : Inspection)⟩
      (migrations.map fun m => (.ledger, .getEntity table (historyKey m.id)))
      ⟨made + migrations.length, stores, ⟨table, [], found ++ statusOf stores table migrations⟩⟩ := by
  induction migrations generalizing found made with
  | nil => simpa [statusOf] using Path.refl _
  | cons m rest ih =>
    have hrest := ih (found ++ [⟨m.id, m.path, stores.records table m.id⟩]) (made + 1)
    have hmade : made + 1 + rest.length = made + (m :: rest).length := by rw [List.length_cons]; omega
    rw [hmade, List.append_assoc] at hrest
    exact .step (transition_told h files table m rest found made) hrest

/-- Telling takes a lookup for each migration, tells what the ledger says, and leaves the stores as they were. -/
theorem status_eq (options : Options) (migrations : List MigrationFile) :
    status .calm options migrations stores =
      ⟨migrations.map (options.lookup ·.id), stores, some (.ok (statusOf stores options.historyTable migrations))⟩ := by
  have hpath := path_told h (fun _ _ => .error .notFound) options.historyTable migrations [] 0
  have hend : Ends (fun _ _ => .error .notFound) .calm ⟨0 + migrations.length, stores,
      (⟨options.historyTable, [], [] ++ statusOf stores options.historyTable migrations⟩ : Inspection)⟩ [] stores
      (.ok (statusOf stores options.historyTable migrations)) :=
    .done rfl
  have := hpath.follow_ends hend (Nat.lt_succ_self migrations.length)
  rw [List.append_nil] at this
  exact this

end

/-! ## what a run makes of it -/

variable {text : String → Except FileError String} {options : Options}

theorem turns_completed {migrations : List MigrationFile} {stores : Stores σ η} (h : stores.Reachable)
    (hn : (migrations.map (·.id)).Nodup)
    (hl : ∀ m ∈ migrations, stores.records options.historyTable m.id = false →
      Unobtrusive text stores options.historyTable m)
    {summary : Summary} (ho : (turns text options migrations stores).outcome = some (.ok summary)) :
    Completed options.historyTable migrations stores (turns text options migrations stores).stores summary := by
  rcases turns_cases migrations h hn hl with ⟨hok, hrecorded⟩ | ⟨_, _, _, _, _, herror, -⟩
  · cases hok.symm.trans ho
    exact completed_of_recorded hrecorded
  · cases herror.symm.trans ho

section

variable {migrations before after : List MigrationFile} {m : MigrationFile} {cause : MigrateError} {summary : Summary}
  {stores final : Stores σ η} {c : Course σ η Summary}

omit [MemoryLike σ] [MemoryLike η] in
theorem Completed.mem_applied_iff {table : String} (hd : Completed table migrations stores final summary) {id : String} :
    id ∈ summary.applied ↔ stores.records table id = false ∧ id ∈ migrations.map (·.id) := by
  rw [hd.applied]
  constructor
  · intro hid
    obtain ⟨m, hm, rfl⟩ := List.mem_map.mp hid
    obtain ⟨hm, hr⟩ := List.mem_filter.mp hm
    exact ⟨by simpa using hr, List.mem_map_of_mem hm⟩
  · rintro ⟨hr, hid⟩
    obtain ⟨m, hm, rfl⟩ := List.mem_map.mp hid
    exact List.mem_map_of_mem (List.mem_filter.mpr ⟨hm, by simp [hr]⟩)

omit [MemoryLike σ] [MemoryLike η] in
/-- The first migration that was not recorded is applied, or the run stops at it. -/
theorem Stopped.first_unrecorded (hs : Stopped text options stores before m after cause c)
    (hd : Completed options.historyTable before stores final summary) :
    ∃ first, (before ++ m :: after).find? (!stores.records options.historyTable ·.id) = some first ∧
      (first.id ∈ summary.applied ∨ first = m) := by
  rw [List.find?_append]
  cases hfirst : before.find? (!stores.records options.historyTable ·.id) with
  | none => exact ⟨m, by simp [hs.unrecorded], Or.inr rfl⟩
  | some first =>
    have hpending := List.find?_some hfirst
    have hmem : first.id ∈ before.map (·.id) := List.mem_map_of_mem (List.mem_of_find?_eq_some hfirst)
    exact ⟨first, rfl, Or.inl (hd.mem_applied_iff.mpr ⟨by simpa using hpending, hmem⟩)⟩

omit [MemoryLike σ] [MemoryLike η] in
/-- After a run that stops, those are recorded that were before or that it has applied. -/
theorem Stopped.records_iff (hs : Stopped text options stores before m after cause c)
    (hn : ((before ++ m :: after).map (·.id)).Nodup)
    (hd : Completed options.historyTable before stores final summary) {x : MigrationFile}
    (hx : x ∈ before ++ m :: after) :
    c.stores.records options.historyTable x.id = true ↔
      stores.records options.historyTable x.id = true ∨ x.id ∈ summary.applied := by
  rcases List.mem_append.mp hx with hx | hx
  · rw [hs.recorded x hx, hd.mem_applied_iff]
    cases stores.records options.historyTable x.id
    · simp [List.mem_map_of_mem hx]
    · simp
  · have hnot : x.id ∉ summary.applied := by
      intro hid
      rw [List.map_append, List.nodup_append] at hn
      exact hn.2.2 _ (hd.mem_applied_iff.mp hid).2 _ (List.mem_map_of_mem hx) rfl
    rw [hs.others x hx]
    simp [hnot]

end

variable [Transparent σ] [Transparent η]

/-- What is told foretells what a run does. Of any directory's migrations, whose operations leave the ledger alone
    unless they are recorded, status tells in order, by one lookup for each, whether the ledger has them, with or
    without its table, and changes nothing. A run from there that succeeds skips those it told to be applied and applies
    the others, and all are told to be applied after. One that fails at a migration, which was told to be pending, does
    so with those before; the first that was told to be pending is applied or is the one at which it fails; and after it
    those are told to be applied that were before or that it has applied. -/
theorem status_foretells (t : FileTree) (text : String → Except FileError String) (options : Options)
    {migrations : List MigrationFile} (hm : t.migrations options = .ok migrations) {stores : Stores σ η}
    (h : stores.Reachable)
    (hl : ∀ m ∈ migrations, stores.records options.historyTable m.id = false →
      Unobtrusive text stores options.historyTable m) :
    let c := run (fun _ => text) .calm options migrations stores
    (∀ s ∈ [stores, c.stores], status .calm options migrations s =
      ⟨migrations.map (options.lookup ·.id), s, some (.ok (statusOf s options.historyTable migrations))⟩) ∧
    ((∃ summary, c.outcome = some (.ok summary) ∧ Completed options.historyTable migrations stores c.stores summary) ∨
      ∃ before m after cause summary, migrations = before ++ m :: after ∧
        stores.records options.historyTable m.id = false ∧ c.outcome = some (.error (.migration m.id cause)) ∧
        (turns text options before stores).outcome = some (.ok summary) ∧
        (turns text options before stores).calls <+: c.calls ∧
        Completed options.historyTable before stores (turns text options before stores).stores summary ∧
        (∃ first, migrations.find? (!stores.records options.historyTable ·.id) = some first ∧
          (first.id ∈ summary.applied ∨ first = m)) ∧
        ∀ x ∈ migrations, c.stores.records options.historyTable x.id = true ↔
          stores.records options.historyTable x.id = true ∨ x.id ∈ summary.applied) := by
  intro c
  have hn : (migrations.map (·.id)).Nodup := nodup_ids hm
  have hc : c = _ := run_eq_turns text options migrations h
  constructor
  · intro s hs
    simp only [List.mem_cons, List.not_mem_nil, or_false] at hs
    rcases hs with rfl | rfl
    · exact status_eq h options migrations
    · exact status_eq (run_reachable text .calm options migrations h) options migrations
  by_cases hempty : migrations = []
  · rw [if_pos hempty] at hc
    subst hempty
    rw [hc]
    exact Or.inl ⟨_, rfl, completed_of_recorded (recorded_none h h rfl)⟩
  rw [if_neg hempty] at hc
  rw [hc]
  rcases turns_cases migrations h hn hl with ⟨hok, hrecorded⟩ | ⟨before, m, after, cause, rfl, herror, hstopped⟩
  · exact Or.inl ⟨_, hok, completed_of_recorded hrecorded⟩
  · obtain ⟨⟨summary, hs⟩, calls, -, hcalls⟩ := hstopped.fails
    have hbefore : (before.map (·.id)).Nodup := by
      rw [List.map_append] at hn
      exact (List.nodup_append.mp hn).1
    have hdone := turns_completed h hbefore (fun x hx => hl x (List.mem_append_left _ hx)) hs
    refine Or.inr ⟨before, m, after, cause, summary, rfl, hstopped.unrecorded, herror, hs, ?_, hdone,
      hstopped.first_unrecorded hdone, fun x hx => hstopped.records_iff hn hdone hx⟩
    rw [hcalls]
    exact List.prefix_append _ _

end

/-- Where the first of two migrations has been applied it is told to be, the run applies the other, and then both are
    told to be. -/
theorem status_foretells_patch :
    let first : MigrationFile := ⟨"1", "1.mig", "m/1.mig"⟩
    let second : MigrationFile := ⟨"2", "2.mig", "m/2.mig"⟩
    let stores : Stores MemoryStore MemoryStore :=
      (run (fun _ => addThenPatchText) .calm (.ofDirectory "m") [first] (.shared .empty)).stores
    let c := run (fun _ => addThenPatchText) .calm (.ofDirectory "m") [first, second] stores
    addThenPatch.migrations (.ofDirectory "m") = .ok [first, second] ∧
      (status .calm (.ofDirectory "m") [first, second] stores).outcome =
        some (.ok [⟨"1", "m/1.mig", true⟩, ⟨"2", "m/2.mig", false⟩]) ∧
      c.outcome = some (.ok ⟨["2"], ["1"]⟩) ∧
      status .calm (.ofDirectory "m") [first, second] c.stores =
        ⟨["1", "2"].map (Options.ofDirectory "m").lookup, c.stores,
          some (.ok [⟨"1", "m/1.mig", true⟩, ⟨"2", "m/2.mig", true⟩])⟩ := by
  intro first second stores c
  have hm : addThenPatch.migrations (.ofDirectory "m") = .ok [first, second] := by cbv
  have hr : stores.Reachable := run_reachable addThenPatchText .calm _ _ ReachableFrom.refl
  have hl : ∀ m ∈ [first, second], stores.records "MigrationHistories" m.id = false →
      Unobtrusive addThenPatchText stores "MigrationHistories" m := by
    intro m hm _ ops hops _ op hop
    simp only [first, second, List.mem_cons, List.not_mem_nil, or_false] at hm
    rcases hm with rfl | rfl <;> cases hops <;> cases List.mem_singleton.mp hop <;> decide
  have hc : c.outcome = some (.ok ⟨["2"], ["1"]⟩) := by decide +kernel
  obtain ⟨htold, hrun⟩ := status_foretells addThenPatch addThenPatchText (.ofDirectory "m") hm hr hl
  refine ⟨hm, ?_, hc, ?_⟩
  · rw [htold stores (List.mem_cons_self ..)]
    decide +kernel
  · rcases hrun with ⟨_, -, hdone⟩ | ⟨_, _, _, _, _, -, -, hfailed, -⟩
    · rw [htold c.stores (by simp [c])]
      simp only [statusOf, List.map_cons, List.map_nil, hdone.recorded first (by simp),
        hdone.recorded second (by simp), c]
      rfl
    · cases hc.symm.trans hfailed

end TableMigrations
