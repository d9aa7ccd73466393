/-
  TableMigrations.Proofs.Rerun — what has been applied is not applied again.

  A run that succeeds leaves every migration of its directory recorded, under whatever conditions it succeeded
  (`recorded_of_ok`). A later run over names that are among these asks the ledger for each and nothing else, and finds
  all of them (`path_skipped`): no file is read, so it does not matter what has become of the files since.
-/
import TableMigrations.Proofs.History
import TableMigrations.Proofs.Turns

namespace TableMigrations

section

variable {σ η : Type} [TableStore σ] [TableStore η] [MemoryLike σ] [MemoryLike η]

/-! ## after a run that succeeds -/

theorem recorded_of_ok (text : String → Except FileError String) (cond : Conditions) (options : Options)
    {migrations : List MigrationFile} {stores : Stores σ η} (h : stores.Reachable)
    (hn : (migrations.map (·.id)).Nodup)
    (hl : ∀ m ∈ migrations, stores.records options.historyTable m.id = false →
      Unobtrusive text stores options.historyTable m)
    {summary : Summary} (ho : (run (fun _ => text) cond options migrations stores).outcome = some (.ok summary)) :
    ∀ m ∈ migrations,
      (run (fun _ => text) cond options migrations stores).stores.records options.historyTable m.id = true := by
  intro m hm
  have hcalm : run (fun _ => text) cond options migrations stores = run (fun _ => text) .calm options migrations stores :=
    Run.follow_calm (a := ⟨0, stores, Run.start options migrations⟩) ho
  rw [hcalm, run_eq_turns text options migrations h, if_neg (List.ne_nil_of_mem hm)] at ho ⊢
  rcases turns_cases migrations h hn hl with ⟨-, hrecorded⟩ | ⟨_, _, _, _, _, houtcome, -⟩
  · exact (hrecorded m.id).mpr (Or.inr (List.mem_map_of_mem hm))
  · cases houtcome.symm.trans ho

/-! ## over recorded migrations -/

variable [Transparent σ] [Transparent η]

theorem lookup_recorded {stores : Stores σ η} (h : stores.Reachable) {table id : String}
    (hr : stores.records table id = true) :
    ∃ row, stores.perform .ledger (.getEntity table (historyKey id)) = (.ok (some row), stores) := by
  have hread : (stores.perform .ledger (.getEntity table (historyKey id))).2 = stores := Stores.perform_read h .ledger rfl
  simp only [Stores.records] at hr
  split at hr
  · rename_i row hfound
    exact ⟨row, Prod.ext hfound hread⟩
  · cases hr
  · cases hr

theorem lookup_unrecorded {stores : Stores σ η} (h : stores.Reachable) {options : Options}
    (ht : stores.ledgerTable options.historyTable ≠ none) {id : String}
    (hu : stores.records options.historyTable id = false) :
    stores.perform .ledger (options.lookup id).2 = (.ok none, stores) := by
  obtain ⟨rows, hrows⟩ := Option.ne_none_iff_exists'.mp ht
  have hanswer := (Stores.lookup_ledgerTable h options.historyTable (historyKey id)).1
  rw [hrows] at hanswer
  rw [records_of_ledgerTable h hrows, Option.isSome_eq_false_iff, Option.isNone_iff_eq_none] at hu
  exact Prod.ext (hanswer.trans (congrArg Except.ok hu)) (Stores.perform_read h .ledger rfl)

/-- A migration that has a record is skipped, and the stores stay as they are. -/
theorem visit_recorded {stores : Stores σ η} (h : stores.Reachable) {text : String → Except FileError String}
    {options : Options} {m : MigrationFile} (hr : stores.records options.historyTable m.id = true) :
    visit text options stores m = ⟨[options.lookup m.id], stores, some (.ok false)⟩ := by
  obtain ⟨row, hp⟩ := lookup_recorded h hr
  simp only [visit, hp]
  rfl

/-- Recorded migrations take a run a lookup each; it skips them, and the stores stay as they are. -/
theorem path_skipped (files : FileReader σ) (options : Options) {remaining : List MigrationFile} {stores : Stores σ η}
    (h : stores.Reachable) (hr : ∀ m ∈ remaining, stores.records options.historyTable m.id = true) (summary : Summary)
    (made : Nat) :
    Path files .calm remaining.length ⟨made, stores, (⟨options, .choosing, remaining, summary⟩ : Run)⟩
      (remaining.map (options.lookup ·.id))
      ⟨made + remaining.length, stores,
        ⟨options, .choosing, [], { summary with skipped := summary.skipped ++ remaining.map (·.id) }⟩⟩ := by
  induction remaining generalizing summary made with
  | nil => simpa using Path.refl _
  | cons m rest ih =>
    obtain ⟨hm, hrest⟩ := List.forall_mem_cons.mp hr
    obtain ⟨row, hfound⟩ := lookup_recorded h hm
    have hskip : Transition files .calm ⟨made, stores, (⟨options, .choosing, m :: rest, summary⟩ : Run)⟩
        [options.lookup m.id]
        ⟨made + 1, stores, ⟨options, .choosing, rest, { summary with skipped := summary.skipped ++ [m.id] }⟩⟩ :=
      .of_call rfl hfound rfl
    have hlater := ih hrest { summary with skipped := summary.skipped ++ [m.id] } (made + 1)
    have hmade : made + 1 + rest.length = made + (m :: rest).length := by rw [List.length_cons]; omega
    have hids : summary.skipped ++ [m.id] ++ rest.map (·.id) = summary.skipped ++ (m :: rest).map (·.id) := by simp
    rw [hmade, hids] at hlater
    exact .step hskip hlater

theorem length_lt_budget (options : Options) (rows : Nat) (readings : List Run.Reading) :
    readings.length + 1 < Run.budget options rows readings := by
  rw [Run.budget]
  induction readings with
  | nil => simp
  | cons reading rest ih =>
    have := Run.one_lt_migrationBudget options rows reading
    simp only [List.length_cons, List.foldr_cons] at ih ⊢
    omega

/-- A run over migrations that are all recorded asks the ledger for each, skips it, and changes nothing. -/
theorem run_of_recorded (files : FileReader σ) (options : Options) {remaining : List MigrationFile}
    {stores : Stores σ η} (h : stores.Reachable) (hne : remaining ≠ [])
    (hr : ∀ m ∈ remaining, stores.records options.historyTable m.id = true) :
    run files .calm options remaining stores =
      ⟨(.ledger, .ensureTable options.historyTable) :: remaining.map (options.lookup ·.id), stores,
        some (.ok ⟨[], remaining.map (·.id)⟩)⟩ := by
  have hpresent : stores.ledgerTable options.historyTable ≠ none := by
    intro hnone
    obtain ⟨m, hm⟩ := List.exists_mem_of_ne_nil remaining hne
    have := hr m hm
    rw [Stores.records_eq h, hnone] at this
    cases this
  have hopening := transition_opening files options h hne
  rw [Stores.ensure_present h options.historyTable hpresent] at hopening
  have hpath := (Path.single hopening).trans (path_skipped files options h hr ⟨[], []⟩ 1)
  have hfuel := length_lt_budget options
    (stores.rowTotal + Run.writes (remaining.map fun m => (m, files stores.data m.path)))
    (remaining.map fun m => (m, files stores.data m.path))
  rw [List.length_map] at hfuel
  have hend : Ends files .calm ⟨1 + remaining.length, stores,
      (⟨options, .choosing, [], ⟨[], [] ++ remaining.map (·.id)⟩⟩ : Run)⟩ [] stores
      (.ok ⟨[], [] ++ remaining.map (·.id)⟩) :=
    .done rfl
  have := hpath.follow_ends hend (show 1 + remaining.length < _ by rw [Nat.add_comm]; exact hfuel)
  rw [List.append_nil, List.nil_append] at this
  exact this

/-- Running again does nothing. After a run that has succeeded, whatever befell it, a run over a directory whose
    migrations are among those of the first makes sure of the ledger's table, looks each migration up in order, skips
    all of them and leaves the stores as they were; and the files may have become anything since, for none is read. -/
theorem run_again (t later : FileTree) (text : String → Except FileError String) (cond : Conditions)
    {options options' : Options} {migrations remaining : List MigrationFile}
    (hm : t.migrations options = .ok migrations) {stores : Stores σ η} (h : stores.Reachable)
    (hl : ∀ m ∈ migrations, stores.records options.historyTable m.id = false →
      Unobtrusive text stores options.historyTable m)
    {summary : Summary} (ho : (run (fun _ => text) cond options migrations stores).outcome = some (.ok summary))
    (hm' : later.migrations options' = .ok remaining) (he : options'.extension = options.extension)
    (hp : options'.tablePrefix = options.tablePrefix) (hne : remaining ≠ [])
    (hsub : ∀ name ∈ remaining.map (·.name), name ∈ migrations.map (·.name)) (files : FileReader σ) :
    let final := (run (fun _ => text) cond options migrations stores).stores
    run files .calm options' remaining final =
      ⟨(.ledger, .ensureTable options.historyTable) :: remaining.map (options.lookup ·.id), final,
        some (.ok ⟨[], remaining.map (·.id)⟩)⟩ := by
  intro final
  have htable : options'.historyTable = options.historyTable := by rw [Options.historyTable, hp]; rfl
  have hrecorded := recorded_of_ok text cond options h (nodup_ids hm) hl ho
  have hall : ∀ m ∈ remaining, final.records options'.historyTable m.id = true := by
    intro m hmem
    obtain ⟨m', hmem', hname⟩ := List.mem_map.mp (hsub m.name (List.mem_map_of_mem hmem))
    rw [name_eq hm hmem', name_eq hm' hmem, he] at hname
    rw [htable, ← (String.append_left_inj _).mp hname]
    exact hrecorded m' hmem'
  have hrun := run_of_recorded files options' (run_reachable text cond options migrations h) hne hall
  simp only [Options.lookup, htable] at hrun
  exact hrun

end

/-! ## an edited directory -/

def addThenPatch : FileTree :=
  ⟨.ofList [(["m"], .directory), (["m", "1.mig"], .file 0), (["m", "2.mig"], .file 1)],
    #[.bytes "INSERT t p r".toUTF8, .bytes "UPDATEA t a|1|NUMBER".toUTF8], []⟩

/-- The directory when the first of them has gone and the second is no text any more. -/
def garbledPatch : FileTree :=
  ⟨.ofList [(["m"], .directory), (["m", "2.mig"], .file 0)], #[.bytes ⟨#[0xFF]⟩], []⟩

def addThenPatchText (path : String) : Except FileError String :=
  .ok (if path = "m/1.mig" then "INSERT t p r" else "UPDATEA t a|1|NUMBER")

/-- Cancelled after its last call the first run still succeeds. The next run skips the garbled migration. -/
theorem run_again_garbled :
    let migrations : List MigrationFile := [⟨"1", "1.mig", "m/1.mig"⟩, ⟨"2", "2.mig", "m/2.mig"⟩]
    let stores : Stores MemoryStore MemoryStore := .shared .empty
    let c := run (fun _ => addThenPatchText) ⟨some 10, fun _ => none⟩ (.ofDirectory "m") migrations stores
    addThenPatch.migrations (.ofDirectory "m") = .ok migrations ∧
      (∀ m ∈ migrations, addThenPatch.readText m.path = addThenPatchText m.path) ∧ c.calls.length = 10 ∧
      c.outcome = some (.ok ⟨["1", "2"], []⟩) ∧ garbledPatch.readText "m/2.mig" = .error .notUtf8 ∧
      run (fun _ => garbledPatch.readText) .calm (.ofDirectory "m") [⟨"2", "2.mig", "m/2.mig"⟩] c.stores =
        ⟨[(.ledger, .ensureTable "MigrationHistories"), (Options.ofDirectory "m").lookup "2"], c.stores,
          some (.ok ⟨[], ["2"]⟩)⟩ := by
  intro migrations stores c
  have hm : addThenPatch.migrations (.ofDirectory "m") = .ok migrations := by cbv
  have hm' : garbledPatch.migrations (.ofDirectory "m") = .ok [⟨"2", "2.mig", "m/2.mig"⟩] := by cbv
  have hr : stores.Reachable := ReachableFrom.refl
  have hc : c.outcome = some (.ok ⟨["1", "2"], []⟩) := by decide +kernel
  have hl : ∀ m ∈ migrations, stores.records "MigrationHistories" m.id = false →
      Unobtrusive addThenPatchText stores "MigrationHistories" m := by
    intro m hm _ ops hops _ op hop
    simp only [migrations, List.mem_cons, List.not_mem_nil, or_false] at hm
    rcases hm with rfl | rfl <;> cases hops <;> cases List.mem_singleton.mp hop <;> decide
  refine ⟨hm, ?_, by decide +kernel, hc, by cbv, ?_⟩
  · intro m hm
    simp only [migrations, List.mem_cons, List.not_mem_nil, or_false] at hm
    rcases hm with rfl | rfl <;> cbv
  · exact run_again addThenPatch garbledPatch addThenPatchText _ hm hr hl hc hm' rfl rfl (by decide) (by decide)
      fun _ => garbledPatch.readText

end TableMigrations
