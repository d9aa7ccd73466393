/-
  TableMigrations.Proofs.FirstRefusal — how much is asked of the store at once does not change what goes wrong.

  Where batches end depends on their size, so a migration that fails leaves more or less of the failing partition
  written. But whatever the size, the writes of a partition come in the same order and the partitions too: steps under
  any limits either lead to one and the same store or stop for one and the same action (`Settled`), and at a stop only
  that action's partition can be written further or less far (`stops_submits`). An execution fails where its plan
  stops.
-/
import TableMigrations.Proofs.Execution

namespace TableMigrations

/-! ## stores that differ in one partition -/

/-- The stores have the same rows in the same tables, but for rows of one partition of a table that both have. -/
structure MemoryStore.AlikeBeside (table partition : String) (s t : MemoryStore) : Prop where
  others : ∀ u ≠ table, s.tables.get? u = t.tables.get? u
  rows : ∃ rows rows', s.tables.get? table = some rows ∧ t.tables.get? table = some rows' ∧
    ∀ k, k.partition ≠ partition → rows.get? k = rows'.get? k

namespace MemoryStore.AlikeBeside

variable {table partition : String} {s t u : MemoryStore}

theorem symm (h : s.AlikeBeside table partition t) : t.AlikeBeside table partition s := by
  obtain ⟨rows, rows', hs, ht, hr⟩ := h.rows
  exact ⟨fun u hu => (h.others u hu).symm, rows', rows, ht, hs, fun k hk => (hr k hk).symm⟩

theorem trans (h : s.AlikeBeside table partition t) (h' : t.AlikeBeside table partition u) :
    s.AlikeBeside table partition u := by
  obtain ⟨rows, rows', hs, ht, hr⟩ := h.rows
  obtain ⟨rows₁, rows'', ht', hu, hr'⟩ := h'.rows
  cases ht.symm.trans ht'
  exact ⟨fun v hv => (h.others v hv).trans (h'.others v hv), rows, rows'', hs, hu,
    fun k hk => (hr k hk).trans (hr' k hk)⟩

theorem withRows (s : MemoryStore) {rows rows' : Rows}
    (h : ∀ k, k.partition ≠ partition → rows.get? k = rows'.get? k) :
    (s.withRows table rows).AlikeBeside table partition (s.withRows table rows') := by
  refine ⟨?_, rows, rows', s.get?_withRows_self table rows, s.get?_withRows_self table rows', h⟩
  intro u hu
  rw [s.get?_withRows, s.get?_withRows, if_neg hu, if_neg hu]

end MemoryStore.AlikeBeside

/-! ## where steps stop -/

/-- Steps that come to an action which the store refuses: those before are done, and the next batch is rejected for it.
    The store is then `mid`, but for rows of the action's partition. -/
inductive Stops (s : MemoryStore) (table : String) (a : BatchAction) (mid : MemoryStore) : List Step → Prop
  | intro {before after : List Step} {b : Batch} {left : MemoryStore} {index : Nat}
    (done : effects s before = some left)
    (refused : left.submitBatch b.table b.partition b.actions =
      (.error (.batchRejected index (a.refusal table)), left))
    (alike : left.AlikeBeside table a.partition mid) : Stops s table a mid (before ++ .submit b :: after)

section

variable {s s' mid : MemoryStore} {table : String} {a : BatchAction} {front back : List Step}

theorem Stops.append_left (h : Stops s' table a mid back) (he : effects s front = some s') :
    Stops s table a mid (front ++ back) := by
  obtain ⟨done, refused, alike⟩ := h
  rw [← List.append_assoc]
  exact .intro (by rw [effects_append, he]; exact done) refused alike

theorem Stops.append_right (h : Stops s table a mid front) (back : List Step) :
    Stops s table a mid (front ++ back) := by
  obtain ⟨done, refused, alike⟩ := h
  rw [List.append_assoc]
  exact .intro done refused alike

end

/-- Steps that have the same effects under all limits that the store accepts, or stop for the same action. -/
def Settled (s : MemoryStore) (steps : Limits → List Step) : Prop :=
  (∃ after, ∀ limits, limits.Sound → effects s (steps limits) = some after) ∨
    ∃ table a mid, ∀ limits, limits.Sound → Stops s table a mid (steps limits)

/-- Steps whose effects do not depend on limits may come before. -/
theorem Settled.prepend {s mid : MemoryStore} {front back : Limits → List Step}
    (h : ∀ limits, effects s (front limits) = some mid) (h' : Settled mid back) :
    Settled s (fun limits => front limits ++ back limits) := by
  rcases h' with ⟨after, hback⟩ | ⟨table, a, left, hstop⟩
  · refine Or.inl ⟨after, fun limits hl => ?_⟩
    rw [effects_append, h]
    exact hback limits hl
  · exact Or.inr ⟨table, a, left, fun limits hl => (hstop limits hl).append_left (h limits)⟩

/-- Steps one after the other are settled if the first are, and the second where the first lead. -/
theorem Settled.append {s : MemoryStore} {front back : Limits → List Step} (h : Settled s front)
    (h' : ∀ mid, (∀ limits, limits.Sound → effects s (front limits) = some mid) → Settled mid back) :
    Settled s (fun limits => front limits ++ back limits) := by
  rcases h with ⟨mid, hfront⟩ | ⟨table, a, mid, hstop⟩
  · rcases h' mid hfront with ⟨after, hback⟩ | ⟨table, a, left, hstop⟩
    · refine Or.inl ⟨after, fun limits hl => ?_⟩
      rw [effects_append, hfront limits hl]
      exact hback limits hl
    · exact Or.inr ⟨table, a, left, fun limits hl => (hstop limits hl).append_left (hfront limits hl)⟩
  · exact Or.inr ⟨table, a, mid, fun limits hl => (hstop limits hl).append_right _⟩

/-! ## the batches of one table -/

/-- Batches of one table stop where their writes stop. -/
theorem stops_submits {table : String} {batches : List Batch} {s : MemoryStore} {rows mid : Rows}
    {before : List BatchAction} {a : BatchAction} (hb : ∀ b ∈ batches, b.Accepted ∧ b.table = table)
    (ht : s.tables.get? table = some rows) (hstop : Rows.StopsAt rows (batches.flatMap (·.actions)) before a mid) :
    Stops s table a (s.withRows table mid) (batches.map .submit) := by
  induction batches generalizing s rows before with
  | nil => exact absurd hstop Rows.not_stopsAt_nil
  | cons b₀ r ih =>
    obtain ⟨hacc, rfl⟩ := hb b₀ List.mem_cons_self
    rw [List.flatMap_cons] at hstop
    rcases hw : Rows.writeAll rows b₀.actions with _ | written
    · -- the writes stop within this batch, which so leaves undone what it did of its partition
      obtain ⟨before', a', mid', hstop'⟩ := Rows.exists_stopsAt hw
      obtain ⟨rfl, rfl, rfl⟩ := hstop.unique (hstop'.append (Rows.writeAll_nil rows) _)
      have hp : ∀ x ∈ b₀.actions, x.partition = b₀.partition := (checkBatch_eq_ok_iff.mp hacc).2
      obtain ⟨rest, hcut⟩ := hstop'.cut
      have ha : a.partition = b₀.partition := hp a (by rw [hcut]; simp)
      have hbefore : ∀ x ∈ before, x.partition = b₀.partition := by
        intro x hx
        exact hp x (by rw [hcut]; exact List.mem_append_left _ hx)
      refine Stops.intro (show effects s [] = some s from rfl) (MemoryStore.submitBatch_of_stopsAt hacc ht hstop') ?_
      rw [← MemoryStore.withRows_self ht, MemoryStore.withRows_withRows]
      exact .withRows s fun k hk => ((Rows.writeAll_partition hbefore hstop'.done).2 k (ha ▸ hk)).symm
    · have hrest : Rows.writeAll written (r.flatMap (·.actions)) = none := by
        have := hstop.writeAll_eq_none
        rwa [Rows.writeAll_append, hw, Option.bind_some] at this
      obtain ⟨before', a', mid', hstop'⟩ := Rows.exists_stopsAt hrest
      have hall := hstop'.append hw []
      rw [List.append_nil] at hall
      obtain ⟨rfl, rfl, rfl⟩ := hstop.unique hall
      have hlater : ∀ b ∈ r, b.Accepted ∧ b.table = b₀.table := fun b h => hb b (List.mem_cons_of_mem _ h)
      have := ih hlater (s.get?_withRows_self b₀.table written) hstop'
      rw [s.withRows_withRows] at this
      have hfirst : effects s [.submit b₀] = some (s.withRows b₀.table written) := by
        rw [effects_cons, effect_submit_of_some hacc ht hw]; rfl
      exact this.append_left hfirst

/-- The batches that row writes are cut into are settled: their writes come in one order under all limits. -/
theorem settled_submitSteps {table : String} {s : MemoryStore} {rows : Rows} (ht : s.tables.get? table = some rows)
    (actions : List BatchAction) : Settled s (submitSteps table actions) := by
  rcases hw : Rows.writeAll rows ((classify (·.partition) actions).flatMap (·.2)) with _ | written
  · obtain ⟨before, a, mid, hstop⟩ := Rows.exists_stopsAt hw
    refine Or.inr ⟨table, a, s.withRows table mid, fun limits hl => ?_⟩
    rw [← flatMap_chunkByPartition table actions limits.batch] at hstop
    exact stops_submits (fun b hb => ⟨accepted_of_mem_chunkByPartition hl hb, (mem_chunkByPartition hb).1⟩) ht hstop
  · refine Or.inl ⟨s.withRows table written, fun limits hl => ?_⟩
    rw [← flatMap_chunkByPartition table actions limits.batch, Rows.writeAll_chunkByPartition] at hw
    rw [effects_submitSteps hl ht, hw]
    rfl

/-! ## whole plans -/

theorem settled_changeSteps {table : String} (changes : List Change) (gathered : List BatchAction) {s : MemoryStore}
    {rows : Rows} (ht : s.tables.get? table = some rows) :
    Settled s (fun limits => changeSteps limits table gathered changes) := by
  induction changes generalizing s rows gathered with
  | nil => exact settled_submitSteps ht gathered
  | cons c r ih =>
    cases c with
    | row kind e => exact ih _ ht
    | deleteAll =>
      have hempty : effects s [.drop table, .recreate table] = some (s.withRows table .empty) :=
        congrArg some (s.ensureTable_deleteTable table)
      have hrest := ih gathered (s.get?_withRows_self table .empty)
      exact Settled.prepend (fun _ => hempty) hrest
    | updateAll patch =>
      refine (settled_submitSteps ht gathered).append fun written hwritten => ?_
      obtain ⟨rows, hrows⟩ : ∃ rows, written.tables.get? table = some rows := by
        have := hwritten _ (Limits.within_sound 0 0)
        rw [effects_submitSteps (Limits.within_sound 0 0) ht] at this
        obtain ⟨rows, -, rfl⟩ := Option.map_eq_some_iff.mp this
        exact ⟨rows, s.get?_withRows_self table rows⟩
      have hscan : ∀ limits : Limits, effects written [.scan (.start table limits.page) patch] =
          some (written.withRows table (rows.patchAll patch)) := by
        intro limits
        show ((written.tables.get? table).map _).bind _ = _
        rw [hrows]; rfl
      exact Settled.prepend hscan (ih [] (written.get?_withRows_self table _))

theorem settled_groups (groups : List TableGroup) (s : MemoryStore) :
    Settled s (fun limits => groups.flatMap (·.steps limits)) := by
  induction groups generalizing s with
  | nil => exact Or.inl ⟨s, fun _ _ => rfl⟩
  | cons g r ih =>
    have hprepare : effects s [.prepare g.table] = some (s.withRows g.table (s.rowsOf g.table)) :=
      congrArg some (s.ensureTable_eq g.table)
    have hchanges := settled_changeSteps (g.operations.map (·.change)) []
      (s.get?_withRows_self g.table (s.rowsOf g.table))
    exact (Settled.prepend (fun _ => hprepare) hchanges).append fun mid _ => ih mid

/-! ## executions -/

/-- An execution whose plan stops for an action fails with the refusal of the action, and leaves the rest as it is
    there. -/
theorem execute_of_stops {η : Type} [TableStore η] {limits : Limits} (hl : limits.Sound) {stores : Stores MemoryStore η}
    (hw : stores.data.WellFiled) {ops : List Operation} {table : String} {a : BatchAction} {mid : MemoryStore}
    (h : Stops stores.data table a mid (planSteps limits ops)) :
    ∃ calls index left, left.AlikeBeside table a.partition mid ∧
      execute .calm limits ops stores =
        ⟨calls, stores.withData left, some (.error (.store (.batchRejected index (a.refusal table))))⟩ := by
  obtain ⟨steps, hsteps⟩ : ∃ steps, steps = planSteps limits ops := ⟨_, rfl⟩
  have hfresh : ∀ step ∈ steps, step.Fresh limits := fun _ hs => fresh_planSteps (hsteps ▸ hs)
  have hwrites := writes_planSteps limits ops
  have hbudget := Execution.budget_eq (stores.rowTotal + ops.length) (.start limits ops)
  have hrows := Execution.rowTotal_data_le stores
  rw [← hsteps] at h hwrites
  obtain @⟨before, after, b, left, index, hdone, hrefused, halike⟩ := h
  have hbefore : TableStore.rowTotal stores.data + (before.map Step.writes).sum ≤ stores.rowTotal + ops.length := by
    simp only [List.map_append, List.sum_append] at hwrites
    omega
  obtain ⟨n, hn, calls, made, stats, hpath⟩ := Execution.agenda_path (fun _ _ => .error .notFound) 0 Stats.zero
    (.submit b :: after) hl hw (fun step hs => hfresh step (List.mem_append_left _ hs)) hbefore hdone
  have hperform : TableStore.perform (stores.withData left).data (.submitBatch b.table b.partition b.actions) =
      (.error (.batchRejected index (a.refusal table)), left) := by
    rw [stores.data_withData]; exact hrefused
  have hend : Ends (fun _ _ => .error .notFound) .calm
      (Execution.config limits made (stores.withData left) (.submit b :: after) stats) _ _ _ :=
    Execution.ends_call rfl hperform rfl
  rw [stores.withData_withData] at hend
  refine ⟨calls ++ [(.data, .submitBatch b.table b.partition b.actions)], index, left, halike, ?_⟩
  rw [execute, hbudget, Execution.start, ← hsteps]
  refine hpath.follow_ends hend ?_
  simp only [List.map_append, List.sum_append]
  omega

/-- Both fail for one row of one table, and the stores that they leave differ at most in rows of that row's partition of
    that table. -/
structure FailAlike (c c' : Course MemoryStore MemoryStore Stats) (table : String) (key : RowKey) : Prop where
  refused : ∃ e e', c.outcome = some (.error (.store e)) ∧ c'.outcome = some (.error (.store e')) ∧ e.root = e'.root ∧
    (e.root = .conflict table key ∨ e.root = .entityNotFound table key)
  stores : c.stores.data.AlikeBeside table key.partition c'.stores.data

/-- How many actions go into a batch and how many rows onto a page cannot change what goes wrong: an execution that
    fails under some limits fails under any others too, with the same refusal of the same row at the root of its error,
    and the stores differ at most within that row's partition of its table. -/
theorem execute_fails_alike {s : MemoryStore} (h : ReachableFrom .empty s) (ops : List Operation)
    (batch page batch' page' : Nat) {e : MigrateError}
    (hfails : (execute .calm (.within batch page) ops (.shared s : Stores MemoryStore MemoryStore)).outcome =
      some (.error e)) :
    ∃ table key, FailAlike (execute .calm (.within batch page) ops (.shared s))
      (execute .calm (.within batch' page') ops (.shared s)) table key := by
  have hl := Limits.within_sound
  have hw : (Stores.shared s : Stores MemoryStore MemoryStore).data.WellFiled := MemoryStore.wellFiled_of_reachable h
  rcases settled_groups (groupByTable ops) s with ⟨after, hall⟩ | ⟨table, a, mid, hstop⟩
  · rcases execute_effects (hl batch page) hw ops with ⟨after', calls, stats, -, hx⟩ | ⟨hnone, -⟩
    · rw [hx] at hfails
      cases hfails
    · cases hnone.symm.trans (hall _ (hl batch page))
  · obtain ⟨calls, index, left, halike, hx⟩ := execute_of_stops (hl batch page) hw (hstop _ (hl batch page))
    obtain ⟨calls', index', left', halike', hx'⟩ := execute_of_stops (hl batch' page') hw (hstop _ (hl batch' page'))
    refine ⟨table, a.entity.key, ?_, ?_⟩
    · refine ⟨.batchRejected index (a.refusal table), .batchRejected index' (a.refusal table), by rw [hx], by rw [hx'],
        rfl, ?_⟩
      show (a.refusal table).root = _ ∨ (a.refusal table).root = _
      rw [a.root_refusal]
      exact a.refusal_cases table
    · rw [hx, hx']
      exact halike.trans halike'.symm

/-- A row is added that is there already, after others of its partition and before one of another. -/
def addedTwice : List Operation :=
  [⟨"t", .row .add (.bare ⟨"p", "a"⟩)⟩, ⟨"t", .row .add (.bare ⟨"q", "c"⟩)⟩, ⟨"t", .row .add (.bare ⟨"p", "b"⟩)⟩,
    ⟨"t", .row .add (.bare ⟨"p", "old"⟩)⟩]

/-- In batches of two the first two rows of the partition are there when the third is refused, in one batch they are
    not. -/
theorem execute_addedTwice_alike :
    ReachableFrom .empty oneRow ∧
      (execute .calm (.within 2 1) addedTwice (.shared oneRow : Stores MemoryStore MemoryStore)).outcome =
        some (.error (.store (.batchRejected 0 (.conflict "t" ⟨"p", "old"⟩)))) ∧
      ∃ table key, FailAlike (execute .calm (.within 2 1) addedTwice (.shared oneRow))
        (execute .calm (.within 100 50) addedTwice (.shared oneRow)) table key := by
  have hfails : (execute .calm (.within 2 1) addedTwice (.shared oneRow : Stores MemoryStore MemoryStore)).outcome =
      some (.error (.store (.batchRejected 0 (.conflict "t" ⟨"p", "old"⟩)))) := by decide +kernel
  exact ⟨oneRow_reachable, hfails, execute_fails_alike oneRow_reachable addedTwice 2 1 100 50 hfails⟩

end TableMigrations
