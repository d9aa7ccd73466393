/-
  TableMigrations.Proofs.Counts — the counts of an execution are those of what it did.

  Each transition keeps the counts in step with the calls made and with the steps that are left (`Tallied`), for any
  store and under any conditions. What the steps ask for is what the operations ask for (`whole_planSteps`,
  `writes_planSteps_eq`). How many rows a scan goes through is only known from the store: every step of a plan adds
  its scan to those before it (`Swept`), with the rows that the table has when the scan asks for its first page.
-/
import TableMigrations.Proofs.Streaming
import TableMigrations.Proofs.Turns

namespace TableMigrations

open Execution

/-! ## what calls submit -/

def Call.batch? : Call → Option (List BatchAction)
  | .submitBatch _ _ actions => some actions
  | .ensureTable _ | .deleteTable _ | .getEntity .. | .queryPage .. => none

def submissions (calls : List (Target × Call)) : List (List BatchAction) := calls.filterMap (·.2.batch?)

theorem submissions_append (l r : List (Target × Call)) : submissions (l ++ r) = submissions l ++ submissions r :=
  List.filterMap_append

/-! ## steps and operations -/

namespace Operation

def isEmptying (op : Operation) : Bool := op.change matches .deleteAll

def isPatch (op : Operation) : Bool := op.change matches .updateAll _

end Operation

def Step.whole? : Step → Option Operation
  | .recreate t => some ⟨t, .deleteAll⟩
  | .scan pager patch => some ⟨pager.table, .updateAll patch⟩
  | .prepare _ | .drop _ | .submit _ => none

def whole (steps : List Step) : List Operation := steps.filterMap Step.whole?

theorem whole_append (l r : List Step) : whole (l ++ r) = whole l ++ whole r := List.filterMap_append

theorem whole_submitSteps (table : String) (actions : List BatchAction) (limits : Limits) :
    whole (submitSteps table actions limits) = [] := by
  rw [whole, submitSteps, List.filterMap_map, List.filterMap_eq_nil_iff]
  exact fun _ _ => rfl

theorem whole_changeSteps (limits : Limits) (table : String) (gathered : List BatchAction) {ops : List Operation}
    (h : ∀ op ∈ ops, op.table = table) :
    whole (changeSteps limits table gathered (ops.map (·.change))) = ops.filter (·.action?.isNone) := by
  induction ops generalizing gathered with
  | nil => exact whole_submitSteps table gathered limits
  | cons op r ih =>
    obtain ⟨rfl, hr⟩ := List.forall_mem_cons.mp h
    obtain ⟨table, ⟨kind, e⟩ | patch | -⟩ := op
    · exact ih _ hr
    · rw [List.map_cons, changeSteps, whole_append, whole_submitSteps, List.nil_append]
      exact congrArg (_ :: ·) (ih _ hr)
    · exact congrArg (_ :: ·) (ih _ hr)

/-- A plan carries out the operations on whole tables, table by table and each table's in order. -/
theorem whole_planSteps (limits : Limits) (ops : List Operation) :
    whole (planSteps limits ops) = ((classify (·.table) ops).flatMap (·.2)).filter (·.action?.isNone) := by
  rw [whole, planSteps, groupByTable, List.flatMap_map, List.filterMap_flatMap, List.filter_flatMap]
  refine List.flatMap_congr fun c hc => ?_
  have htable : ∀ op ∈ c.2, op.table = c.1 := by
    intro op hop
    rw [(mem_classify hc).2] at hop
    exact of_decide_eq_true (List.mem_filter.mp hop).2
  exact whole_changeSteps limits c.1 [] htable

theorem countP_whole_planSteps (limits : Limits) (ops : List Operation) :
    (whole (planSteps limits ops)).countP (·.isEmptying) = ops.countP (·.isEmptying) := by
  rw [whole_planSteps, List.countP_filter, ← (flatMap_classify_perm (fun op : Operation => op.table) ops).countP_eq]
  refine List.countP_congr fun op _ => ?_
  obtain ⟨table, ⟨kind, e⟩ | patch | -⟩ := op <;> simp [Operation.isEmptying, Operation.action?]

/-- A plan goes through a table as often as the operations do, and with the same patches in the same order. -/
theorem filter_whole_planSteps (limits : Limits) (ops : List Operation) (t : String) :
    (whole (planSteps limits ops)).filter (fun op => op.table = t && op.isPatch) =
      ops.filter fun op => op.table = t && op.isPatch := by
  have hwhole (op : Operation) : (op.table = t && op.isPatch && op.action?.isNone) = (op.table = t && op.isPatch) := by
    obtain ⟨table, ⟨kind, e⟩ | patch | -⟩ := op <;> simp [Operation.isPatch, Operation.action?]
  rw [whole_planSteps, List.filter_filter]
  simp only [hwhole]
  refine filter_flatMap_classify t (fun op h => ?_) ops
  rw [Bool.and_eq_true, decide_eq_true_eq] at h
  exact h.1

/-! ## the counts along a path -/

namespace Execution

/-- What a stretch of an execution adds to the counts, and what it takes from the steps that are left. -/
structure Tallied (a b : Execution) (calls : List (Target × Call)) : Prop where
  batches : b.stats.batches = a.stats.batches + (submissions calls).length
  actions : b.stats.actions = a.stats.actions + ((submissions calls).map List.length).sum
  truncated : b.stats.truncatedTables + (whole b.agenda).countP (·.isEmptying) =
    a.stats.truncatedTables + (whole a.agenda).countP (·.isEmptying)
  /-- A patched row is a write that the steps did not ask for by themselves. -/
  writes : b.stats.actions + (b.agenda.map Step.writes).sum + a.stats.patchedEntities =
    a.stats.actions + (a.agenda.map Step.writes).sum + b.stats.patchedEntities
  patched : b.stats.patchedEntities + a.stats.scannedEntities ≤ a.stats.patchedEntities + b.stats.scannedEntities

theorem Tallied.refl (a : Execution) : Tallied a a [] := ⟨rfl, rfl, rfl, rfl, Nat.le_refl _⟩

theorem Tallied.trans {a b c : Execution} {l r : List (Target × Call)} (h : Tallied a b l) (h' : Tallied b c r) :
    Tallied a c (l ++ r) where
  batches := by
    rw [h'.batches, h.batches, submissions_append, List.length_append]
    omega
  actions := by
    rw [h'.actions, h.actions, submissions_append, List.map_append, List.sum_append]
    omega
  truncated := h'.truncated.trans h.truncated
  writes := by
    have := h.writes
    have := h'.writes
    omega
  patched := by
    have := h.patched
    have := h'.patched
    omega

theorem tallied_receivePage (limits : Limits) (pager : Pager) (patch : Patch) (r : List Step) (stats : Stats)
    (page : EntityPage) (size : Nat) (after : Option RowKey) :
    Tallied ⟨limits, .scan pager patch :: r, stats⟩
      (receivePage ⟨limits, .scan pager patch :: r, stats⟩ pager patch page r)
      [(.data, .queryPage pager.table size after)] := by
  simp only [receivePage]
  split
  · exact ⟨rfl, rfl, rfl, by simp [Step.writes], Nat.le_refl _⟩
  · rename_i rows pager' _
    have hpatches := length_patches_le patch rows
    constructor
    · rfl
    · rfl
    · rw [whole_append, whole_submitSteps, List.nil_append]
      rfl
    · simp only [List.map_append, List.map_cons, List.sum_append, List.sum_cons, writes_submitSteps, Step.writes]
      omega
    · dsimp only
      omega

/-- What an execution does next keeps the counts in step; it is done when no step is left. -/
theorem tallied_next (e : Execution) :
    match e.next with
    | .done outcome => e.agenda = [] ∧ outcome = .ok e.stats
    | .checkpoint go => Tallied e go []
    | .call _ target c resume => ∀ answer go, resume answer = .ok go → Tallied e go [(target, c)]
    | .read .. => False := by
  obtain ⟨limits, agenda, stats⟩ := e
  cases agenda with
  | nil => exact ⟨rfl, rfl⟩
  | cons step r =>
    cases step with
    | prepare t | drop t =>
      rintro (e | u) go ⟨⟩
      exact ⟨rfl, rfl, rfl, by simp [Step.writes], Nat.le_refl _⟩
    | recreate t =>
      rintro (e | u) go ⟨⟩
      refine ⟨rfl, rfl, ?_, by simp [Step.writes], Nat.le_refl _⟩
      have hmore : (whole (.recreate t :: r)).countP (·.isEmptying) = (whole r).countP (·.isEmptying) + 1 :=
        List.countP_cons_of_pos rfl
      rw [hmore]
      dsimp only
      omega
    | submit batch =>
      rintro (e | u) go ⟨⟩
      exact ⟨rfl, rfl, rfl, by simp [Step.writes]; omega, Nat.le_refl _⟩
    | scan pager patch =>
      cases hx : pager.exhausted with
      | true =>
        rw [next_exhausted hx]
        exact ⟨rfl, rfl, rfl, by simp [Step.writes], Nat.le_refl _⟩
      | false =>
        rw [next_scan hx]
        rintro (e | page) go ⟨⟩
        exact tallied_receivePage limits pager patch r stats page _ _

section

variable {σ η : Type} [TableStore σ] [TableStore η] {files : FileReader σ} {cond : Conditions}
  {a b : Config σ η Execution} {calls : List (Target × Call)}

theorem tallied_of_transition (ht : Transition files cond a calls b) : Tallied a.state b.state calls := by
  have hnext := tallied_next a.state
  cases ht with
  | checkpoint hn _ =>
    rw [show a.state.next = _ from hn] at hnext
    exact hnext
  | call hn _ hr =>
    rw [show a.state.next = _ from hn] at hnext
    exact hnext _ _ hr
  | read hn _ =>
    rw [show a.state.next = _ from hn] at hnext
    exact hnext.elim

/-- Along every path the counts are in step with the calls. -/
theorem tallied_of_path {n : Nat} (hp : Path files cond n a calls b) : Tallied a.state b.state calls := by
  induction hp with
  | refl a => exact .refl _
  | step ht _ ih => exact (tallied_of_transition ht).trans ih

end

end Execution

/-! ## what scans go through -/

/-- A patch of a whole table, with the rows that the table has when the scan for it starts. -/
structure Sweep where
  table : String
  patch : Patch
  rows : Rows
  deriving DecidableEq

namespace Sweep

def operation (sweep : Sweep) : Operation := ⟨sweep.table, .updateAll sweep.patch⟩

def changed (sweep : Sweep) : List Entity := sweep.rows.values.filter fun row => (sweep.patch.apply row).isSome

end Sweep

def scanned? : Target × Call → Option String
  | (.data, .queryPage table _ none) => some table
  | _ => none

section

variable {η : Type} [TableStore η]

/-- The tables of the scans that calls start, each with its rows at that moment. -/
def scanStarts (stores : Stores MemoryStore η) : List (Target × Call) → List (String × Rows)
  | [] => []
  | x :: calls =>
    ((scanned? x).map fun table => (table, stores.data.rowsOf table)).toList ++
      scanStarts (stores.perform x.1 x.2).2 calls

theorem scanStarts_append (stores : Stores MemoryStore η) (made : Nat) (l r : List (Target × Call)) :
    scanStarts stores (l ++ r) = scanStarts stores l ++ scanStarts (stores.replay .calm made l) r := by
  induction l generalizing stores made with
  | nil => rfl
  | cons x l ih =>
    rw [List.cons_append, scanStarts, scanStarts, ih _ (made + 1), List.append_assoc]
    rfl

theorem scanStarts_eq_nil (stores : Stores MemoryStore η) {calls : List (Target × Call)}
    (h : ∀ x ∈ calls, scanned? x = none) : scanStarts stores calls = [] := by
  induction calls generalizing stores with
  | nil => rfl
  | cons x calls ih =>
    obtain ⟨hx, hcalls⟩ := List.forall_mem_cons.mp h
    rw [scanStarts, hx, ih _ hcalls]
    rfl

theorem scanned?_of_mem_calls {table : String} {size : Nat} {turn : PageTurn} (h : turn.after ≠ none)
    {x : Target × Call} (hx : x ∈ turn.calls table size) : scanned? x = none := by
  rcases List.mem_cons.mp hx with rfl | hx
  · obtain ⟨k, hk⟩ := Option.ne_none_iff_exists'.mp h
    rw [hk]
    rfl
  · obtain ⟨b, -, rfl⟩ := List.mem_map.mp hx
    rfl

theorem scanStarts_turns (stores : Stores MemoryStore η) (table : String) (size : Nat) {turns : List PageTurn}
    (h : AskedFrom none turns) :
    scanStarts stores (turns.flatMap (·.calls table size)) = [(table, stores.data.rowsOf table)] := by
  obtain ⟨first, later, rfl, hfirst, hlater⟩ := h
  have hnone : ∀ x ∈ first.batches.map submission ++ later.flatMap (·.calls table size), scanned? x = none := by
    intro x hx
    rcases List.mem_append.mp hx with hx | hx
    · obtain ⟨b, -, rfl⟩ := List.mem_map.mp hx
      rfl
    · obtain ⟨turn, hturn, hx⟩ := List.mem_flatMap.mp hx
      exact scanned?_of_mem_calls (hlater turn hturn) hx
  rw [List.flatMap_cons, PageTurn.calls, List.cons_append, scanStarts, scanStarts_eq_nil _ hnone, hfirst]
  rfl

end

/-- What carrying steps out adds to the counts by its scans: their rows, and those that the patches are for. -/
structure Swept {η : Type} [TableStore η] (stores : Stores MemoryStore η) (steps : List Step)
    (calls : List (Target × Call)) (stats stats' : Stats) (sweeps : List Sweep) : Prop where
  starts : scanStarts stores calls = sweeps.map fun sweep => (sweep.table, sweep.rows)
  operations : sweeps.map (·.operation) = (whole steps).filter (·.isPatch)
  scanned : stats'.scannedEntities = stats.scannedEntities + (sweeps.map (·.rows.size)).sum
  patched : stats'.patchedEntities = stats.patchedEntities + (sweeps.map (·.changed.length)).sum

section

variable {η : Type} [TableStore η] {stores : Stores MemoryStore η}

theorem Swept.append {l r : List Step} {calls calls' : List (Target × Call)} {stats mid stats' : Stats}
    {sweeps sweeps' : List Sweep} {made : Nat} (h : Swept stores l calls stats mid sweeps)
    (h' : Swept (stores.replay .calm made calls) r calls' mid stats' sweeps') :
    Swept stores (l ++ r) (calls ++ calls') stats stats' (sweeps ++ sweeps') where
  starts := by rw [scanStarts_append stores made, h.starts, h'.starts, List.map_append]
  operations := by rw [List.map_append, h.operations, h'.operations, whole_append, List.filter_append]
  scanned := by
    rw [h'.scanned, h.scanned, List.map_append, List.sum_append]
    omega
  patched := by
    rw [h'.patched, h.patched, List.map_append, List.sum_append]
    omega

variable (files : FileReader MemoryStore) {limits : Limits} (hl : limits.Sound) (hpage : 1 ≤ limits.page) (made : Nat)
  (hw : stores.data.WellFiled) (stats : Stats) (r : List Step) {after : MemoryStore}

include hl hpage hw

/-- A step that the store takes is carried out with the counts of its scan, if it is one. -/
theorem step_swept {step : Step} (hf : step.Fresh limits) (he : step.effect stores.data = some after) :
    ∃ n calls made' stats' sweeps, Path files .calm n (config limits made stores (step :: r) stats) calls
      (config limits made' (stores.withData after) r stats') ∧ Swept stores [step] calls stats stats' sweeps := by
  cases step with
  | prepare t | drop t | recreate t =>
    cases he
    exact ⟨1, _, made + 1, _, [], .single (transition_call rfl rfl rfl), rfl, rfl, rfl, rfl⟩
  | submit b => exact ⟨1, _, made + 1, _, [], .single (transition_submit he), rfl, rfl, rfl, rfl⟩
  | scan pager patch =>
    obtain ⟨rows, ht, rfl⟩ := Option.map_eq_some_iff.mp he
    have hf : pager = .start pager.table limits.page := hf
    obtain ⟨n, turns, made', hasked, hrows, -, hpath⟩ := scan_path files hl hpage made hw stats r patch ht
    rw [← hf] at hpath
    obtain ⟨hscanned, hpatched⟩ := countTurns_spec patch stats turns
    rw [hrows] at hscanned hpatched
    refine ⟨n, _, made', _, [⟨pager.table, patch, rows⟩], hpath, ?_, rfl, ?_, hpatched⟩
    · rw [scanStarts_turns stores pager.table limits.page hasked, MemoryStore.rowsOf_eq ht]
      rfl
    · rw [hscanned, SortedMap.values, List.length_map]
      rfl

theorem agenda_swept {steps : List Step} (hf : ∀ step ∈ steps, step.Fresh limits)
    (he : effects stores.data steps = some after) :
    ∃ n calls made' stats' sweeps, Path files .calm n (config limits made stores (steps ++ r) stats) calls
      (config limits made' (stores.withData after) r stats') ∧ Swept stores steps calls stats stats' sweeps := by
  induction steps generalizing made stores stats with
  | nil =>
    cases he
    rw [stores.withData_data]
    exact ⟨0, [], made, stats, [], .refl _, rfl, rfl, rfl, rfl⟩
  | cons step steps ih =>
    rw [effects_cons] at he
    obtain ⟨mid, hm, he⟩ := Option.bind_eq_some_iff.mp he
    obtain ⟨hstep, hsteps⟩ := List.forall_mem_cons.mp hf
    obtain ⟨n, calls, made₁, stats₁, sweeps, h₁, hswept₁⟩ :=
      step_swept files hl hpage made hw stats (steps ++ r) hstep hm
    have hw' : (stores.withData mid).data.WellFiled := by
      rw [stores.data_withData]
      exact effect_wellFiled hw hm
    rw [← stores.data_withData mid] at he
    obtain ⟨m, calls', made₂, stats₂, sweeps', h₂, hswept₂⟩ := ih made₁ hw' stats₁ hsteps he
    rw [stores.withData_withData] at h₂
    rw [show stores.withData mid = _ from h₁.stores_eq] at hswept₂
    exact ⟨n + m, _, made₂, stats₂, _, h₁.trans h₂, hswept₁.append hswept₂⟩

end

/-! ## exact counts -/

section

variable {σ η : Type} [TableStore σ] [TableStore η] {cond : Conditions} {limits : Limits} {ops : List Operation}
  {stores : Stores σ η} {stats : Stats}

theorem execute_calm (ho : (execute cond limits ops stores).outcome = some (.ok stats)) :
    execute cond limits ops stores = execute .calm limits ops stores :=
  EndsOnFailure.follow_calm (π := Execution) Execution.next_error (a := ⟨0, stores, Execution.start limits ops⟩) ho

theorem exists_path_of_ok (ho : (execute cond limits ops stores).outcome = some (.ok stats)) :
    ∃ n b, Path (fun _ _ => .error .notFound) cond n ⟨0, stores, Execution.start limits ops⟩
      (execute cond limits ops stores).calls b ∧ b.state.next = .done (.ok stats) := by
  obtain ⟨n, -, calls, b, r, s, hp, hend, hx⟩ := follow_ends (a := ⟨0, stores, Execution.start limits ops⟩) ho
  obtain ⟨rfl, rfl, hdone⟩ := hend.of_ok
  rw [show execute cond limits ops stores = _ from hx, List.append_nil]
  exact ⟨n, b, hp, hdone⟩

/-- The counts of an execution that succeeds are in step with all its calls. -/
theorem tallied_execute (ho : (execute cond limits ops stores).outcome = some (.ok stats)) :
    ∃ e, e.agenda = [] ∧ e.stats = stats ∧ Tallied (.start limits ops) e (execute cond limits ops stores).calls := by
  obtain ⟨n, b, hp, hdone⟩ := exists_path_of_ok ho
  have hnext := tallied_next b.state
  rw [hdone] at hnext
  exact ⟨b.state, hnext.1, (Except.ok.inj hnext.2).symm, tallied_of_path hp⟩

end

/-- An execution that succeeds has counted the scans of its plan. -/
theorem swept_execute {η : Type} [TableStore η] {stores : Stores MemoryStore η} (h : ReachableFrom .empty stores.data)
    {cond : Conditions} {batch page : Nat} {ops : List Operation} {stats : Stats}
    (ho : (execute cond (.within batch page) ops stores).outcome = some (.ok stats)) :
    ∃ sweeps, Swept stores (planSteps (.within batch page) ops) (execute cond (.within batch page) ops stores).calls
      .zero stats sweeps := by
  have hl := Limits.within_sound batch page
  have hw := MemoryStore.wellFiled_of_reachable h
  have hcalm := execute_calm ho
  rw [hcalm] at ho ⊢
  obtain ⟨after, he⟩ : ∃ after, effects stores.data (planSteps (.within batch page) ops) = some after := by
    rcases execute_effects hl hw ops with ⟨after, -, -, he, -⟩ | ⟨-, calls, after, e, hx⟩
    · exact ⟨after, he⟩
    · rw [hx] at ho
      cases ho
  obtain ⟨n, calls, made, counts, sweeps, hp, hswept⟩ :=
    agenda_swept (fun _ _ => .error .notFound) hl (Nat.le_max_right page 1) 0 hw .zero [] (fun _ => fresh_planSteps) he
  rw [List.append_nil] at hp
  -- the execution came to its end along a path of its own, and all paths to an end are the same
  obtain ⟨m, b, hp', hdone⟩ := exists_path_of_ok ho
  obtain ⟨hcalls, -, hcounts⟩ := hp.ends_unique (o := .ok counts) (.done rfl) hp' (.done hdone)
  rw [List.append_nil, List.append_nil] at hcalls
  rw [← hcalls, ← Except.ok.inj hcounts]
  exact ⟨sweeps, hswept⟩

/-- What the counts of an execution are, given the calls that it made. -/
structure Counted {η : Type} [TableStore η] (ops : List Operation) (stores : Stores MemoryStore η)
    (calls : List (Target × Call)) (stats : Stats) (sweeps : List Sweep) : Prop where
  batches : stats.batches = (submissions calls).length
  actions : stats.actions = ((submissions calls).map List.length).sum
  truncated : stats.truncatedTables = ops.countP (·.isEmptying)
  /-- The sweeps are the scans that were made, each with the rows of its table when it started. -/
  starts : scanStarts stores calls = sweeps.map fun sweep => (sweep.table, sweep.rows)
  /-- Of each table there is one for every operation that patches it, in the order of the operations. -/
  operations : ∀ t, (sweeps.filter (·.table = t)).map (·.operation) = ops.filter fun op => op.table = t && op.isPatch
  scanned : stats.scannedEntities = (sweeps.map (·.rows.size)).sum
  patched : stats.patchedEntities = (sweeps.map (·.changed.length)).sum
  writes : stats.actions = (ops.filterMap Operation.action?).length + stats.patchedEntities
  patched_le : stats.patchedEntities ≤ stats.scannedEntities

/-- An execution that succeeds has counted exactly what it did. -/
theorem execute_counts {η : Type} [TableStore η] {stores : Stores MemoryStore η} (h : ReachableFrom .empty stores.data)
    {cond : Conditions} {batch page : Nat} {ops : List Operation} {stats : Stats}
    (ho : (execute cond (.within batch page) ops stores).outcome = some (.ok stats)) :
    ∃ sweeps, Counted ops stores (execute cond (.within batch page) ops stores).calls stats sweeps := by
  obtain ⟨sweeps, hswept⟩ := swept_execute h ho
  obtain ⟨e, hagenda, rfl, htally⟩ := tallied_execute ho
  have htruncated := htally.truncated
  have hwrites := htally.writes
  have hpatched := htally.patched
  rw [hagenda, show (Execution.start (.within batch page) ops).agenda = planSteps (.within batch page) ops from rfl]
    at htruncated hwrites
  rw [countP_whole_planSteps] at htruncated
  rw [writes_planSteps_eq] at hwrites
  refine ⟨sweeps, htally.batches.trans (Nat.zero_add _), htally.actions.trans (Nat.zero_add _),
    htruncated.trans (Nat.zero_add _), hswept.starts, ?_, hswept.scanned.trans (Nat.zero_add _),
    hswept.patched.trans (Nat.zero_add _), ?_, ?_⟩
  · intro t
    rw [← filter_whole_planSteps (.within batch page) ops t, ← List.filter_filter, ← hswept.operations, List.filter_map]
    rfl
  · exact hwrites.trans (congrArg (· + _) (Nat.zero_add _))
  · exact hpatched.trans (Nat.le_of_eq (Nat.zero_add _))

def mixedWork : List Operation :=
  [⟨"t", .row .upsertMerge (.bare ⟨"p", "d"⟩)⟩, ⟨"u", .row .add (.bare ⟨"p", "a"⟩)⟩,
    ⟨"t", .updateAll ⟨.ofList [("n", .int64 1)]⟩⟩, ⟨"t", .row .delete (.bare ⟨"p", "a"⟩)⟩, ⟨"u", .deleteAll⟩,
    ⟨"u", .updateAll ⟨.ofList [("n", .int64 2)]⟩⟩, ⟨"t", .updateAll ⟨.ofList [("n", .int64 1)]⟩⟩]

/-- Of the rows that are gone through twice, the second patch changes none. -/
theorem execute_counts_mixedWork :
    ReachableFrom .empty (Stores.shared partlyPatched : Stores MemoryStore MemoryStore).data ∧
      (execute .calm (.within 2 1) mixedWork (.shared partlyPatched : Stores MemoryStore MemoryStore)).outcome =
        some (.ok ⟨7, 7, 1, 8, 4⟩) ∧
      ∃ sweeps, Counted mixedWork (.shared partlyPatched : Stores MemoryStore MemoryStore)
        (execute .calm (.within 2 1) mixedWork (.shared partlyPatched : Stores MemoryStore MemoryStore)).calls
        ⟨7, 7, 1, 8, 4⟩ sweeps := by
  have ho : (execute .calm (.within 2 1) mixedWork (.shared partlyPatched : Stores MemoryStore MemoryStore)).outcome =
      some (.ok ⟨7, 7, 1, 8, 4⟩) := by
    decide +kernel
  have hreachable : ReachableFrom .empty (Stores.shared partlyPatched : Stores MemoryStore MemoryStore).data :=
    partlyPatched_reachable
  exact ⟨hreachable, ho, execute_counts hreachable ho⟩

end TableMigrations
