/-
  TableMigrations.Proofs.Permanence — a record of the ledger stays, and where it comes from.

  A record that no operation reaches is the same after a run as before, however the run ends, and a new one is that of a
  migration whose turn the run has completed (`run_permanent`). Operations are not kept from the ledger's table where it
  shares a store with the tables they are about, though: one that empties it takes the records of earlier runs with it
  (`wiped_unrecorded`), and the next run applies those migrations again. It is the operations that have to keep away.
-/
import TableMigrations.Proofs.Failure

namespace TableMigrations

section

variable {σ η : Type} [TableStore σ] [TableStore η]

/-- A migration of a run whose turn has come, after those before it ended well, and in which it was found unrecorded,
    read, executed and recorded: all of that is among the run's calls. -/
def Completes (text : String → Except FileError String) (options : Options) (migrations : List MigrationFile)
    (stores : Stores σ η) (id : String) (c : Course σ η Summary) : Prop :=
  ∃ before m after, migrations = before ++ m :: after ∧ m.id = id ∧
    (∃ summary, (turns text options before stores).outcome = some (.ok summary)) ∧
    (visit text options (turns text options before stores).stores m).outcome = some (.ok true) ∧
    (turns text options (before ++ [m]) stores).calls <+: c.calls

variable {text : String → Except FileError String} {options : Options} {migrations : List MigrationFile}
  {stores : Stores σ η}

/-- Among turns that all end well, a record that is written completes the turn of its migration. -/
theorem turns_completes {before rest : List MigrationFile} {calls : List (Target × Call)} {s : Stores σ η}
    {summary : Summary} (hm : migrations = before ++ rest)
    (hb : turns text options before stores = ⟨calls, s, some (.ok summary)⟩) {id : String}
    (hx : options.record id ∈ calls) {c : Course σ η Summary} (hc : calls <+: c.calls) :
    Completes text options migrations stores id c := by
  have hrecord : options.record id ∈ (turns text options before stores).calls := by rw [hb]; exact hx
  obtain ⟨earlier, m, later, s', rfl, hid, hs, hturn⟩ := account_recording (record_of_turns hrecord)
  have hearlier : turns text options earlier stores =
      ⟨(turns text options earlier stores).calls, (turns text options earlier stores).stores, some (.ok s')⟩ := by
    rw [← show (turns text options earlier stores).outcome = some (.ok s') from hs]
  have hall := turns_append hearlier (m :: later)
  have hone := turns_append hearlier [m]
  rw [hb] at hall
  rcases ho : (visit text options (turns text options earlier stores).stores m).outcome with _ | e | applied
  · simp only [account, ho] at hall
    cases hall
  · simp only [account, ho] at hall
    cases hall
  · have happlied : applied = true := by
      have hturn : options.record id ∈ (visit text options (turns text options earlier stores).stores m).calls := hturn
      rw [← record_mem_recordings, recordings_visit ho] at hturn
      cases applied with
      | true => rfl
      | false => cases hturn
    subst happlied
    refine ⟨earlier, m, later ++ rest, by rw [hm]; simp, hid, ⟨s', hs⟩, ho, List.IsPrefix.trans ?_ hc⟩
    simp only [account, ho] at hall hone
    have hcalls := congrArg Course.calls hall
    simp only [Course.after, ← List.append_assoc] at hcalls
    rw [hone, hcalls]
    simp only [Course.after, List.append_nil]
    exact List.prefix_append _ _

omit [TableStore σ] [TableStore η] in
/-- A record is not among the lookup and the work of a migration under way. -/
theorem record_mem_of_work {calls work : List (Target × Call)} {id j : String} (hw : ∀ x ∈ work, x.1 = .data)
    (hx : options.record id ∈ calls ++ options.lookup j :: work) : options.record id ∈ calls := by
  rcases List.mem_append.mp hx with hx | hx
  · exact hx
  · rcases List.mem_cons.mp hx with hx | hx
    · cases hx
    · cases hw _ hx

theorem Progress.completes {calls last : List (Target × Call)} {s final : Stores σ η} {r : Run}
    {o : Option (Except MigrateError Summary)} (hp : Progress text options migrations stores calls s r) {id : String}
    (hx : options.record id ∈ calls) :
    Completes text options migrations stores id ⟨calls ++ last, final, o⟩ := by
  cases hp with
  | opening => cases hx
  | choosing hm hb => exact turns_completes hm hb hx (List.prefix_append _ _)
  | reading hm hb hl =>
    refine turns_completes hm hb (record_mem_of_work (List.forall_mem_nil _) hx) ?_
    rw [List.append_assoc]
    exact List.prefix_append _ _
  | applying hm hb hl hops hpath =>
    have hwork := (Execution.confined_about _).path (Execution.about_start _ _) hpath
    refine turns_completes hm hb (record_mem_of_work (fun x hx => (hwork x hx).1) hx) ?_
    rw [List.append_assoc]
    exact List.prefix_append _ _

end

/-! ## runs -/

section

variable {σ η : Type} [TableStore σ] [TableStore η] [MemoryLike σ] [MemoryLike η] [Transparent σ] [Transparent η]

/-- The ledger is appended to, as far as operations keep away from it. Of a record that no operation of the migrations
    reaches, and however the run ends: if it was there before, it is there unchanged after; and if it is there after, it
    was there before or is the record of a migration that the run has completed. -/
theorem run_permanent (text : String → Except FileError String) (cond : Conditions) (options : Options)
    (migrations : List MigrationFile) {stores : Stores σ η} (h : stores.Reachable) {id : String}
    (hu : Unaddressed text stores.isShared options.historyTable migrations id) :
    let c := run (fun _ => text) cond options migrations stores
    (∀ row, stores.record? options.historyTable id = some row →
        c.stores.record? options.historyTable id = some row) ∧
      ∀ row, c.stores.record? options.historyTable id = some row →
        stores.record? options.historyTable id = some row ∨
          (row = historyRecord id ∧ Completes text options migrations stores id c) := by
  intro c
  obtain ⟨n, l, last, a, s, o, hpath, hp, he, hrun⟩ := run_progress h cond
  have hcalm := Run.path_calm hpath
  have hreach : a.stores.Reachable := by
    have hreplay : a.stores = stores.replay .calm 0 l := hcalm.stores_eq
    exact hreplay ▸ h.replay .calm 0 l
  obtain rfl := Run.ends_stores hreach he
  have hc : c = _ := hrun
  rw [hc]
  rcases Path.record? (a := ⟨0, stores, .start options migrations⟩) h (Run.respects_start hu) hcalm with
    ⟨hx, hnone, hsome⟩ | ⟨-, hsame⟩
  · constructor
    · intro row hrow
      cases hnone.symm.trans hrow
    · intro row hrow
      cases hsome.symm.trans hrow
      exact Or.inr ⟨rfl, hp.completes hx⟩
  · constructor
    · intro row hrow
      exact hsame.trans hrow
    · intro row hrow
      exact Or.inl (hsame.symm.trans hrow)

end

/-! ## operations on the ledger's table -/

/-- The first of two migrations writes a row; the second writes a row into the ledger's own table, not a record. -/
def notingText (path : String) : Except FileError String :=
  .ok (if path = "m/1.mig" then "INSERT t p r" else "INSERT MigrationHistories note p")

/-- The first of two migrations writes a row; the second empties the ledger's table. -/
def wipingText (path : String) : Except FileError String :=
  .ok (if path = "m/1.mig" then "INSERT t p r" else "DELETE MigrationHistories *")

/-- What the first of the two leaves in a store that holds the ledger, too. -/
def firstApplied : Stores MemoryStore MemoryStore :=
  (run (fun _ => notingText) .calm (.ofDirectory "m") [⟨"1", "1.mig", "m/1.mig"⟩] (.shared .empty)).stores

/-- A row beside the records leaves them alone, although it is written into their table. -/
theorem noted_permanent :
    let migrations : List MigrationFile := [⟨"1", "1.mig", "m/1.mig"⟩, ⟨"2", "2.mig", "m/2.mig"⟩]
    let c := run (fun _ => notingText) .calm (.ofDirectory "m") migrations firstApplied
    firstApplied.Reachable ∧ Unaddressed notingText firstApplied.isShared "MigrationHistories" migrations "1" ∧
      c.outcome = some (.ok ⟨["2"], ["1"]⟩) ∧
      firstApplied.record? "MigrationHistories" "1" = some (historyRecord "1") ∧
      c.stores.record? "MigrationHistories" "1" = some (historyRecord "1") := by
  intro migrations c
  have hr : firstApplied.Reachable := run_reachable notingText .calm _ _ ReachableFrom.refl
  have hu : Unaddressed notingText firstApplied.isShared "MigrationHistories" migrations "1" := by
    intro _ m hm ops hops op hop
    simp only [migrations, List.mem_cons, List.not_mem_nil, or_false] at hm
    rcases hm with rfl | rfl <;> cases hops <;> cases List.mem_singleton.mp hop <;> decide
  have hrecord : firstApplied.record? "MigrationHistories" "1" = some (historyRecord "1") := by decide +kernel
  exact ⟨hr, hu, by decide +kernel, hrecord,
    (run_permanent notingText .calm (.ofDirectory "m") migrations hr hu).1 _ hrecord⟩

/-- A migration that empties the ledger's table takes the record of an earlier run with it. The next run applies that
    migration again, which here is a conflict. -/
theorem wiped_unrecorded :
    let migrations : List MigrationFile := [⟨"1", "1.mig", "m/1.mig"⟩, ⟨"2", "2.mig", "m/2.mig"⟩]
    let c := run (fun _ => wipingText) .calm (.ofDirectory "m") migrations firstApplied
    c.outcome = some (.ok ⟨["2"], ["1"]⟩) ∧
      firstApplied.record? "MigrationHistories" "1" = some (historyRecord "1") ∧
      c.stores.record? "MigrationHistories" "1" = none ∧
      (run (fun _ => wipingText) .calm (.ofDirectory "m") migrations c.stores).outcome =
        some (.error (.migration "1" (.store (.batchRejected 0 (.conflict "t" ⟨"p", "r"⟩))))) := by
  decide +kernel

end TableMigrations
