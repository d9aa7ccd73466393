/-
  TableMigrations.Proofs.Execution — an execution carries its steps out, in bounded time, to exactly their effects.

  Every step but a scan is one call. A scan goes page by page: at each page the table is patched up to a position, the
  rest lies past it, and the position moves on by at least one row (`byCall_scan`); what is done with the pages is told
  turn by turn (`PagedThrough`). Step by step the execution so reaches the effects of its agenda, or ends with the
  store's refusal where these fail (`agenda_path`, `agenda_ends`), within its budget.
-/
import TableMigrations.Proofs.LineByLine
import TableMigrations.Proofs.Process

namespace TableMigrations

/-! ## counts -/

def Stats.submitted (stats : Stats) (batches : List Batch) : Stats :=
  { stats with
    batches := stats.batches + batches.length
    actions := stats.actions + (batches.map (·.actions.length)).sum }

def Stats.scanned (stats : Stats) (patch : Patch) (rows : List Entity) : Stats :=
  { stats with
    scannedEntities := stats.scannedEntities + rows.length
    patchedEntities := stats.patchedEntities + (Execution.patches patch rows).length }

theorem Stats.submitted_cons (stats : Stats) (b : Batch) (batches : List Batch) :
    (stats.submitted [b]).submitted batches = stats.submitted (b :: batches) := by
  simp only [submitted, List.length_cons, List.length_nil, List.map_cons, List.map_nil, List.sum_cons, List.sum_nil,
    Stats.mk.injEq, and_true]
  omega

namespace Execution

variable {η : Type} [TableStore η] {files : FileReader MemoryStore}

abbrev config (limits : Limits) (made : Nat) (stores : Stores MemoryStore η) (agenda : List Step) (stats : Stats) :
    Config MemoryStore η Execution :=
  ⟨made, stores, ⟨limits, agenda, stats⟩⟩

/-! ## calls -/

theorem next_scan {limits : Limits} {pager : Pager} {patch : Patch} {r : List Step} {stats : Stats}
    (hx : pager.exhausted = false) :
    next ⟨limits, .scan pager patch :: r, stats⟩ = .call true .data (.queryPage pager.table pager.pageSize pager.after)
      (orFail fun page => receivePage ⟨limits, .scan pager patch :: r, stats⟩ pager patch page r) := by
  simp only [next, hx, Bool.false_eq_true, if_false]

theorem next_exhausted {limits : Limits} {pager : Pager} {patch : Patch} {r : List Step} {stats : Stats}
    (hx : pager.exhausted = true) : next ⟨limits, .scan pager patch :: r, stats⟩ = .checkpoint ⟨limits, r, stats⟩ := by
  simp only [next, hx, if_true]

section

variable {made : Nat} {stores : Stores MemoryStore η} {e : Execution} {c : Call} {answer : Except StoreError c.Result}
  {after : MemoryStore} {resume : Except StoreError c.Result → Except MigrateError Execution}

theorem transition_call {x : Execution} (hn : e.next = .call true .data c resume)
    (hp : TableStore.perform stores.data c = (answer, after)) (hr : resume answer = .ok x) :
    Transition files .calm ⟨made, stores, e⟩ [(.data, c)] ⟨made + 1, stores.withData after, x⟩ :=
  .of_call hn (by rw [stores.perform_data, hp]) hr

theorem ends_call {err : MigrateError} (hn : e.next = .call true .data c resume)
    (hp : TableStore.perform stores.data c = (answer, after)) (hr : resume answer = .error err) :
    Ends files .calm ⟨made, stores, e⟩ [(.data, c)] (stores.withData after) (.error err : Except MigrateError Stats) :=
  .of_call hn (by rw [stores.perform_data, hp]) hr

end

/-! ## steps that are one call -/

section

variable {limits : Limits} {made : Nat} {stores : Stores MemoryStore η} {stats : Stats} {r : List Step}

def submission (b : Batch) : Target × Call := (.data, .submitBatch b.table b.partition b.actions)

theorem transition_submit {b : Batch} {after : MemoryStore} (he : (Step.submit b).effect stores.data = some after) :
    Transition files .calm (config limits made stores (.submit b :: r) stats) [submission b]
      (config limits (made + 1) (stores.withData after) r (stats.submitted [b])) := by
  simp only [Step.effect] at he
  split at he
  · rename_i hs
    cases he
    exact transition_call rfl hs rfl
  · cases he

/-- Batches that are accepted in turn take a call each. -/
theorem byCall_submits {batches : List Batch} {n : Nat} {a : Config MemoryStore η Execution}
    {calls : List (Target × Call)} {after : MemoryStore}
    (h : ByCall files .calm n a calls (config limits made stores (batches.map .submit ++ r) stats))
    (he : effects stores.data (batches.map .submit) = some after) :
    ByCall files .calm (n + batches.length) a (calls ++ batches.map submission)
      (config limits (made + batches.length) (stores.withData after) r (stats.submitted batches)) := by
  induction batches generalizing n calls made stores stats with
  | nil =>
    cases he
    rw [stores.withData_data, List.map_nil, List.append_nil]
    exact h
  | cons b batches ih =>
    rw [List.map_cons, effects_cons] at he
    obtain ⟨mid, hm, he⟩ := Option.bind_eq_some_iff.mp he
    have ht : Transition files .calm
        (config limits made stores (.submit b :: (batches.map .submit ++ r)) stats) [submission b]
        (config limits (made + 1) (stores.withData mid) (batches.map .submit ++ r) (stats.submitted [b])) :=
      transition_submit hm
    rw [← stores.data_withData mid] at he
    have h' := ih (h.path.byCall ht.byCall) he
    rw [stores.withData_withData, stats.submitted_cons, List.append_assoc] at h'
    rw [List.length_cons, show n + (batches.length + 1) = n + 1 + batches.length by omega,
      show made + (batches.length + 1) = made + 1 + batches.length by omega]
    exact h'

end

/-! ## scans -/

section

variable {limits : Limits} {made : Nat} {stores : Stores MemoryStore η} {stats : Stats} {r : List Step}

def turned (pager : Pager) (rest : List (RowKey × Entity)) : Pager :=
  let next := if pager.pageSize < rest.length then (rest.take pager.pageSize).getLast?.map (·.2.key) else none
  { pager with after := next, exhausted := next.isNone }

theorem ofRows_map (size : Nat) (rest : List (RowKey × Entity)) :
    EntityPage.ofRows size (rest.map (·.2)) =
      ⟨(rest.take size).map (·.2),
        if size < rest.length then (rest.take size).getLast?.map (·.2.key) else none⟩ := by
  simp only [EntityPage.ofRows, List.length_map, ← List.map_take, List.getLast?_map, Option.map_map]
  rfl

theorem receive_page {pager : Pager} {rest : List (RowKey × Entity)} (hs : 1 ≤ pager.pageSize) (hne : rest ≠ []) :
    pager.receive (.ofRows pager.pageSize (rest.map (·.2))) =
      (some ((rest.take pager.pageSize).map (·.2)), turned pager rest) := by
  have hrows : ((rest.take pager.pageSize).map (·.2)).isEmpty = false := by
    rw [List.isEmpty_eq_false_iff, Ne, List.map_eq_nil_iff, List.take_eq_nil_iff]
    rintro (h | h)
    · omega
    · exact hne h
  simp only [Pager.receive, ofRows_map, hrows, Bool.and_false, Bool.false_eq_true, if_false]
  rfl

theorem receive_empty (pager : Pager) :
    pager.receive (.ofRows pager.pageSize []) = (none, { pager with after := none, exhausted := true }) := by
  simp [Pager.receive, EntityPage.ofRows]

theorem perform_query {pager : Pager} {s : MemoryStore} {rows : Rows} {rest : List (RowKey × Entity)}
    (ht : s.tables.get? pager.table = some rows) (hp : rows.past pager.after = rest) :
    TableStore.perform s (.queryPage pager.table pager.pageSize pager.after) =
      (.ok (.ofRows pager.pageSize (rest.map (·.2))), s) := by
  show (s.queryPage pager.table pager.pageSize pager.after, s) = _
  rw [MemoryStore.queryPage, ht, ← hp]

variable (files) (limits) (made) (stats) (r) in
/-- A page with rows: they are patched before the scan goes on. -/
theorem transition_page (patch : Patch) {pager : Pager} {rows : Rows} {rest : List (RowKey × Entity)}
    (ht : stores.data.tables.get? pager.table = some rows) (hp : rows.past pager.after = rest) (hne : rest ≠ [])
    (hx : pager.exhausted = false) (hs : 1 ≤ pager.pageSize) :
    Transition files .calm (config limits made stores (.scan pager patch :: r) stats)
      [(.data, .queryPage pager.table pager.pageSize pager.after)]
      (config limits (made + 1) stores
        (submitSteps pager.table (patches patch ((rest.take pager.pageSize).map (·.2))) limits ++
          .scan (turned pager rest) patch :: r) (stats.scanned patch ((rest.take pager.pageSize).map (·.2)))) := by
  have hreceive := receive_page hs hne
  have hres : receivePage ⟨limits, .scan pager patch :: r, stats⟩ pager patch
      (.ofRows pager.pageSize (rest.map (·.2))) r =
      ⟨limits, submitSteps pager.table (patches patch ((rest.take pager.pageSize).map (·.2))) limits ++
        .scan (turned pager rest) patch :: r, stats.scanned patch ((rest.take pager.pageSize).map (·.2))⟩ := by
    simp only [receivePage, hreceive]
    rfl
  have ht : Transition files .calm ⟨made, stores, _⟩ _ _ :=
    transition_call (next_scan hx) (perform_query ht hp) (congrArg Except.ok hres)
  rw [stores.withData_data] at ht
  exact ht

theorem transition_empty {patch : Patch} {pager : Pager} {rows : Rows}
    (ht : stores.data.tables.get? pager.table = some rows) (hp : rows.past pager.after = [])
    (hx : pager.exhausted = false) :
    Transition files .calm (config limits made stores (.scan pager patch :: r) stats)
      [(.data, .queryPage pager.table pager.pageSize pager.after)] (config limits (made + 1) stores r stats) := by
  have hres : receivePage ⟨limits, .scan pager patch :: r, stats⟩ pager patch (.ofRows pager.pageSize []) r =
      ⟨limits, r, stats⟩ := by
    simp only [receivePage, receive_empty]
  have ht : Transition files .calm ⟨made, stores, _⟩ _ _ :=
    transition_call (next_scan hx) (perform_query ht hp) (congrArg Except.ok hres)
  rw [stores.withData_data] at ht
  exact ht

/-- The end of a scan that had rows asks no store. -/
theorem transition_exhausted {patch : Patch} {pager : Pager} (hx : pager.exhausted = true) :
    Transition files .calm (config limits made stores (.scan pager patch :: r) stats) []
      (config limits made stores r stats) :=
  .checkpoint (a := config limits made stores (.scan pager patch :: r) stats) (next_exhausted hx) rfl

theorem turned_last {pager : Pager} {rest : List (RowKey × Entity)} (h : rest.length ≤ pager.pageSize) :
    (turned pager rest).exhausted = true := by
  have : ¬ pager.pageSize < rest.length := by omega
  simp only [turned, this, if_false, Option.isNone_none]

theorem turned_more {pager : Pager} {rest init : List (RowKey × Entity)} {x : RowKey × Entity}
    (h : pager.pageSize < rest.length) (hp : rest.take pager.pageSize = init ++ [x]) (hx : x.2.key = x.1) :
    turned pager rest = { pager with after := some x.1, exhausted := false } := by
  simp only [turned, h, if_true, hp, List.getLast?_concat, Option.map_some, Option.isNone_some, hx]

theorem length_patches_le (patch : Patch) (rows : List Entity) : (patches patch rows).length ≤ rows.length := by
  rw [patches, List.length_map]
  exact List.length_filterMap_le patch.apply rows

/-! ### turns -/

/-- A page of a scan: the position that it is asked from, its rows, and the batches that are sent before the next. -/
structure PageTurn where
  after : Option RowKey
  rows : List Entity
  batches : List Batch

namespace PageTurn

def actions (turn : PageTurn) : List BatchAction := turn.batches.flatMap (·.actions)

def calls (table : String) (size : Nat) (turn : PageTurn) : List (Target × Call) :=
  (.data, .queryPage table size turn.after) :: turn.batches.map submission

end PageTurn

/-- Turns of a scan, one after another, from a store to the store that they leave: the rows are what the store answers
    just then, they are patched in batches, and the batches are accepted. -/
inductive PagedThrough (limits : Limits) (table : String) (size : Nat) (patch : Patch) :
    MemoryStore → List PageTurn → MemoryStore → Prop
  | nil (s : MemoryStore) : PagedThrough limits table size patch s [] s
  | cons {s mid after : MemoryStore} {turn : PageTurn} {turns : List PageTurn}
    (answered : ∃ next, s.queryPage table size turn.after = .ok ⟨turn.rows, next⟩)
    (cut : turn.batches = chunkByPartition table (patches patch turn.rows) limits.batch)
    (accepted : effects s (turn.batches.map .submit) = some mid)
    (rest : PagedThrough limits table size patch mid turns after) :
    PagedThrough limits table size patch s (turn :: turns) after

theorem PagedThrough.append {table : String} {size : Nat} {patch : Patch} {s mid after : MemoryStore}
    {turns more : List PageTurn} (h : PagedThrough limits table size patch s turns mid)
    (h' : PagedThrough limits table size patch mid more after) :
    PagedThrough limits table size patch s (turns ++ more) after := by
  induction h with
  | nil s => exact h'
  | cons answered cut accepted _ ih => exact .cons answered cut accepted (ih h')

/-- The turns of a scan that stands at this position: the first page is asked from there, and none of the others from
    the start of the table. -/
def AskedFrom (after : Option RowKey) (turns : List PageTurn) : Prop :=
  ∃ first later, turns = first :: later ∧ first.after = after ∧ ∀ turn ∈ later, turn.after ≠ none

def countTurns (patch : Patch) (stats : Stats) (turns : List PageTurn) : Stats :=
  turns.foldl (fun stats turn => (stats.scanned patch turn.rows).submitted turn.batches) stats

section

variable (files) (made) (stats) (r) (hl : limits.Sound) (patch : Patch) {l rest : List (RowKey × Entity)}
  {pager : Pager} {rows : Rows} (ht : stores.data.tables.get? pager.table = some rows) (hw : Rows.WellFiled rows)
  (he : rows.entries = l ++ rest) (hp : rows.past pager.after = rest) (hne : rest ≠ []) (hx : pager.exhausted = false)
  (hs : 1 ≤ pager.pageSize)

include hl ht hw he hp hne hx hs

/-- From a position with rows past it, a turn patches the rows of a page and moves the scan on: the page takes a call,
    and its rows at most one each. -/
theorem byCall_page :
    ∃ turn patched, turn.after = pager.after ∧ turn.rows = (rest.take pager.pageSize).map (·.2) ∧
      turn.batches.length ≤ (rest.take pager.pageSize).length ∧
      patched.entries = l ++ ((rest.take pager.pageSize).map (fun x => (x.1, Rows.patchRow patch x.2)) ++
        rest.drop pager.pageSize) ∧
      Rows.WellFiled patched ∧
      PagedThrough limits pager.table pager.pageSize patch stores.data [turn]
        (stores.data.withRows pager.table patched) ∧
      ByCall files .calm (1 + turn.batches.length) (config limits made stores (.scan pager patch :: r) stats)
        (turn.calls pager.table pager.pageSize)
        (config limits (made + 1 + turn.batches.length) (stores.withData (stores.data.withRows pager.table patched))
          (.scan (turned pager rest) patch :: r) (countTurns patch stats [turn])) := by
  obtain ⟨page, hpage⟩ : ∃ page, page = rest.take pager.pageSize := ⟨_, rfl⟩
  have hkeys : ∀ x ∈ page, x.2.key = x.1 := by
    intro x hx
    rw [hpage] at hx
    exact hw.key_of_mem (by rw [he]; exact List.mem_append_right l (List.mem_of_mem_take hx))
  have hquery := congrArg Prod.fst (perform_query ht hp)
  rw [ofRows_map, ← hpage] at hquery
  have ht₁ := transition_page files limits made stats r patch ht hp hne hx hs
  rw [← hpage] at ht₁ ⊢
  have hcut : rows.entries = l ++ (page ++ rest.drop pager.pageSize) := by rw [he, hpage, List.take_append_drop]
  obtain ⟨patched, hwrite, hentries⟩ := Rows.writeAll_patches patch hcut hkeys
  have heffect : effects stores.data
      ((chunkByPartition pager.table (patches patch (page.map (·.2))) limits.batch).map .submit) =
      some (stores.data.withRows pager.table patched) := by
    have := effects_submitSteps hl ht (patches patch (page.map (·.2)))
    rwa [hwrite, Option.map_some] at this
  have hbatches := length_chunkByPartition_le pager.table (patches patch (page.map (·.2))) limits.batch
  have hpatches := length_patches_le patch (page.map (·.2))
  rw [List.length_map] at hpatches
  exact ⟨⟨pager.after, page.map (·.2), chunkByPartition pager.table (patches patch (page.map (·.2))) limits.batch⟩,
    patched, rfl, rfl, by dsimp only; omega, hentries, hw.writeAll hwrite, .cons ⟨_, hquery⟩ rfl heffect (.nil _),
    byCall_submits ht₁.byCall heffect⟩

/-- From a position with the table patched before it and rows past it, a scan patches these too, turn by turn, and ends
    with a call: each page takes a call for itself and at most one for each of its rows. -/
theorem byCall_scan :
    ∃ n ≤ 2 * rest.length, ∃ turns made' pager' after,
      pager'.exhausted = true ∧ AskedFrom pager.after turns ∧ turns.flatMap (·.rows) = rest.map (·.2) ∧
      after.entries = l ++ rest.map (fun x => (x.1, Rows.patchRow patch x.2)) ∧
      PagedThrough limits pager.table pager.pageSize patch stores.data turns (stores.data.withRows pager.table after) ∧
      ByCall files .calm n (config limits made stores (.scan pager patch :: r) stats)
        (turns.flatMap (·.calls pager.table pager.pageSize))
        (config limits made' (stores.withData (stores.data.withRows pager.table after)) (.scan pager' patch :: r)
          (countTurns patch stats turns)) := by
  induction h : rest.length using Nat.strongRecOn generalizing l rest pager rows made stores stats with
  | ind size ih =>
    subst h
    have hpos : 0 < rest.length := List.length_pos_iff.mpr hne
    obtain ⟨turn, patched, hafter₁, hrows, hn, hentries, hfiled, hpaged, h₁⟩ :=
      byCall_page files made stats r hl patch ht hw he hp hne hx hs
    rw [List.length_take] at hn
    by_cases hmore : pager.pageSize < rest.length
    · -- the next page starts past this one's last row, which is still there under its key
      have hpage : rest.take pager.pageSize ≠ [] := by
        rw [← List.length_pos_iff, List.length_take]
        omega
      obtain ⟨init, x, hlast⟩ : ∃ init x, rest.take pager.pageSize = init ++ [x] :=
        ⟨_, _, (List.dropLast_concat_getLast hpage).symm⟩
      have hx' : x ∈ rows.entries := by
        have : x ∈ rest.take pager.pageSize := by rw [hlast]; simp
        rw [he]; exact List.mem_append_right l (List.mem_of_mem_take this)
      rw [turned_more hmore hlast (hw.key_of_mem hx')] at h₁
      have hpast : patched.past (some x.1) = rest.drop pager.pageSize := by
        refine SortedMap.past_cut (e := (x.1, Rows.patchRow patch x.2))
          (l := l ++ init.map fun x => (x.1, Rows.patchRow patch x.2)) ?_
        rw [hentries, hlast]; simp
      have hlength : (rest.drop pager.pageSize).length = rest.length - pager.pageSize := List.length_drop
      have hleft : rest.drop pager.pageSize ≠ [] := by
        rw [← List.length_pos_iff]
        omega
      obtain ⟨m, hm, turns, made₂, pager₂, after, hx₂, hasked, hrows₂, hafter, hpaged₂, h₂⟩ :=
        @ih (rest.drop pager.pageSize).length (by omega) (made + 1 + turn.batches.length)
          (stores.withData (stores.data.withRows pager.table patched)) (countTurns patch stats [turn]) _ _
          { pager with after := some x.1, exhausted := false } patched
          (by rw [stores.data_withData]; exact stores.data.get?_withRows_self _ _) hfiled
          (by rw [hentries, List.append_assoc]) hpast hleft rfl hs rfl
      rw [stores.data_withData, MemoryStore.withRows_withRows] at hpaged₂ h₂
      rw [stores.withData_withData] at h₂
      refine ⟨1 + turn.batches.length + m, by omega, turn :: turns, made₂, pager₂, after, hx₂, ?_, ?_, ?_, ?_,
        h₁.path.byCall h₂⟩
      · obtain ⟨next, later, rfl, hnext, hlater⟩ := hasked
        refine ⟨turn, _, rfl, hafter₁, List.forall_mem_cons.mpr ⟨?_, hlater⟩⟩
        rw [hnext]
        exact Option.some_ne_none x.1
      · rw [List.flatMap_cons, hrows, hrows₂, ← List.map_append, List.take_append_drop]
      · rw [hafter, List.append_assoc, ← List.map_append, List.take_append_drop]
      · exact hpaged.append hpaged₂
    · have hend : rest.length ≤ pager.pageSize := by omega
      rw [List.take_of_length_le hend, List.drop_eq_nil_of_le hend, List.append_nil] at hentries
      rw [List.take_of_length_le hend] at hrows
      refine ⟨1 + turn.batches.length, by omega, [turn], made + 1 + turn.batches.length, turned pager rest, patched,
        turned_last hend, ⟨turn, [], rfl, hafter₁, by simp⟩, ?_, hentries, hpaged, ?_⟩
      · rw [List.flatMap_singleton, hrows]
      · rw [List.flatMap_singleton]
        exact h₁

end

end

/-! ## steps -/

def Pages (s : MemoryStore) : Step → Prop
  | .scan pager _ => (s.rowsOf pager.table).entries ≠ []
  | .prepare _ | .drop _ | .recreate _ | .submit _ => False

section

variable {limits : Limits} {made : Nat} {stores : Stores MemoryStore η} {stats : Stats} {r : List Step} {step : Step}
  {after : MemoryStore}

theorem transition_step (hf : step.Fresh limits) (hp : ¬ Pages stores.data step)
    (he : step.effect stores.data = some after) :
    ∃ x stats', Transition files .calm (config limits made stores (step :: r) stats) [x]
      (config limits (made + 1) (stores.withData after) r stats') := by
  cases step with
  | prepare t | drop t | recreate t => cases he; exact ⟨_, _, transition_call rfl rfl rfl⟩
  | submit b => exact ⟨_, _, transition_submit he⟩
  | scan pager patch =>
    obtain ⟨rows, ht, rfl⟩ := Option.map_eq_some_iff.mp he
    have hnone : rows.entries = [] := by
      rw [← MemoryStore.rowsOf_eq ht]; exact Classical.not_not.mp hp
    have hsame : rows.patchAll patch = rows := by
      apply SortedMap.ext_entries
      rw [hnone]; exact congrArg (List.map _) hnone
    have hafter : pager.after = none := by rw [hf]; rfl
    have hx : pager.exhausted = false := by rw [hf]; rfl
    rw [hsame, MemoryStore.withRows_self ht, stores.withData_data]
    exact ⟨_, stats, transition_empty ht (by rw [hafter]; exact hnone) hx⟩

/-- A step that has rows to go through does so by calls, and then finds the scan at its end. -/
theorem byCall_pages (hl : limits.Sound) (hw : stores.data.WellFiled) (hf : step.Fresh limits)
    (hp : Pages stores.data step) (he : step.effect stores.data = some after) :
    ∃ n ≤ 2 * TableStore.rowTotal stores.data, ∃ calls made' stats' pager patch,
      pager.exhausted = true ∧ ByCall files .calm n (config limits made stores (step :: r) stats) calls
        (config limits made' (stores.withData after) (.scan pager patch :: r) stats') := by
  cases step with
  | prepare t | drop t | recreate t => cases hp
  | submit b => cases hp
  | scan pager patch =>
    obtain ⟨rows, ht, rfl⟩ := Option.map_eq_some_iff.mp he
    have hsize := stores.data.size_rowsOf_le pager.table
    have hrows := hw pager.table
    have hne : rows.entries ≠ [] := by rw [← MemoryStore.rowsOf_eq ht]; exact hp
    rw [MemoryStore.rowsOf_eq ht] at hsize hrows
    have hafter : pager.after = none := by rw [hf]; rfl
    have hx : pager.exhausted = false := by rw [hf]; rfl
    have hpage : 1 ≤ pager.pageSize := by rw [hf]; exact Nat.le_max_right _ _
    obtain ⟨n, hn, turns, made', pager', after, hx', -, -, hentries, -, h⟩ :=
      byCall_scan files made stats r hl patch (l := []) ht hrows rfl (by rw [hafter]; rfl) hne hx hpage
    have hpatched : after = rows.patchAll patch := SortedMap.ext_entries hentries
    rw [hpatched] at h
    have hn : n ≤ 2 * rows.size := hn
    exact ⟨n, by omega, _, made', _, pager', patch, hx', h⟩

variable (files) (made) (stats) (r)

/-- A step that the store takes is carried out within its budget. -/
theorem step_path (hl : limits.Sound) (hw : stores.data.WellFiled) (hf : step.Fresh limits)
    (he : step.effect stores.data = some after) :
    ∃ n ≤ stepBudget (TableStore.rowTotal stores.data) step, ∃ calls made' stats',
      Path files .calm n (config limits made stores (step :: r) stats) calls
        (config limits made' (stores.withData after) r stats') := by
  by_cases hp : Pages stores.data step
  · obtain ⟨n, hn, calls, made', stats', pager, patch, hx, h⟩ := byCall_pages hl hw hf hp he
    refine ⟨n + 1, ?_, _, made', stats', h.path.trans (.single (transition_exhausted hx))⟩
    cases step with
    | scan => simp only [stepBudget]; omega
    | _ => cases hp
  · obtain ⟨x, stats', ht⟩ := transition_step hf hp he
    refine ⟨1, ?_, [x], made + 1, stats', .single ht⟩
    cases step <;> simp only [stepBudget] <;> omega

/-- A step that the store refuses ends the execution. -/
theorem step_ends (hf : step.Fresh limits) (he : step.effect stores.data = none) :
    ∃ calls after e, Ends files .calm (config limits made stores (step :: r) stats) calls (stores.withData after)
      (.error (.store e) : Except MigrateError Stats) := by
  cases step with
  | prepare t | drop t | recreate t => cases he
  | submit b =>
    simp only [Step.effect] at he
    split at he
    · cases he
    · rename_i e _ hs
      exact ⟨_, _, e, ends_call rfl hs rfl⟩
  | scan pager patch =>
    have ht : stores.data.tables.get? pager.table = none := Option.map_eq_none_iff.mp he
    have hx : pager.exhausted = false := by rw [hf]; rfl
    have hq : TableStore.perform stores.data (.queryPage pager.table pager.pageSize pager.after) =
        (.error (.tableNotFound pager.table), stores.data) := by
      show (stores.data.queryPage pager.table pager.pageSize pager.after, stores.data) = _
      rw [MemoryStore.queryPage, ht]
    exact ⟨_, _, _, ends_call (next_scan hx) hq rfl⟩

end

/-! ## agendas -/

theorem stepBudget_mono {m n : Nat} (h : m ≤ n) (step : Step) : stepBudget m step ≤ stepBudget n step := by
  cases step <;> simp only [stepBudget] <;> omega

section

variable (files) {limits : Limits} (made : Nat) {stores : Stores MemoryStore η} (stats : Stats) (r : List Step)
  {steps : List Step} {rows : Nat}

theorem agenda_path (hl : limits.Sound) (hw : stores.data.WellFiled) (hf : ∀ step ∈ steps, step.Fresh limits)
    (hrows : TableStore.rowTotal stores.data + (steps.map Step.writes).sum ≤ rows) {after : MemoryStore}
    (he : effects stores.data steps = some after) :
    ∃ n ≤ (steps.map (stepBudget rows)).sum, ∃ calls made' stats',
      Path files .calm n (config limits made stores (steps ++ r) stats) calls
        (config limits made' (stores.withData after) r stats') := by
  induction steps generalizing made stores stats with
  | nil =>
    cases he
    rw [stores.withData_data]
    exact ⟨0, Nat.le_refl _, [], made, stats, .refl _⟩
  | cons step steps ih =>
    rw [effects_cons] at he
    obtain ⟨mid, hm, he⟩ := Option.bind_eq_some_iff.mp he
    simp only [List.map_cons, List.sum_cons] at hrows ⊢
    have htotal := effect_rowTotal hm
    obtain ⟨n, hn, calls, made₁, stats₁, h₁⟩ := step_path files made stats (steps ++ r) hl hw
      (hf step List.mem_cons_self) hm
    rw [← stores.data_withData mid] at he htotal
    obtain ⟨m, hm', calls', made₂, stats₂, h₂⟩ := ih made₁ stats₁
      (by rw [stores.data_withData]; exact effect_wellFiled hw hm)
      (fun step h => hf step (List.mem_cons_of_mem _ h)) (by omega) he
    rw [stores.withData_withData] at h₂
    have := stepBudget_mono (show TableStore.rowTotal stores.data ≤ rows by omega) step
    exact ⟨n + m, by omega, calls ++ calls', made₂, stats₂, h₁.trans h₂⟩

theorem agenda_ends (hl : limits.Sound) (hw : stores.data.WellFiled) (hf : ∀ step ∈ steps, step.Fresh limits)
    (hrows : TableStore.rowTotal stores.data + (steps.map Step.writes).sum ≤ rows)
    (he : effects stores.data steps = none) :
    ∃ n ≤ (steps.map (stepBudget rows)).sum, ∃ calls b calls' after e,
      Path files .calm n (config limits made stores (steps ++ r) stats) calls b ∧
        Ends files .calm b calls' (stores.withData after) (.error (.store e) : Except MigrateError Stats) := by
  induction steps generalizing made stores stats with
  | nil => cases he
  | cons step steps ih =>
    rw [effects_cons] at he
    simp only [List.map_cons, List.sum_cons] at hrows ⊢
    rcases hm : step.effect stores.data with _ | mid
    · obtain ⟨calls', after, e, hend⟩ := step_ends files made stats (steps ++ r)
        (hf step List.mem_cons_self) hm
      exact ⟨0, Nat.zero_le _, [], _, calls', after, e, .refl _, hend⟩
    · rw [hm, Option.bind_some] at he
      have htotal := effect_rowTotal hm
      obtain ⟨n, hn, calls, made₁, stats₁, h₁⟩ := step_path files made stats (steps ++ r) hl hw
        (hf step List.mem_cons_self) hm
      rw [← stores.data_withData mid] at he htotal
      obtain ⟨m, hm', calls', b, calls'', after, e, h₂, hend⟩ := ih made₁ stats₁
        (by rw [stores.data_withData]; exact effect_wellFiled hw hm)
        (fun step h => hf step (List.mem_cons_of_mem _ h)) (by omega) he
      rw [stores.withData_withData] at hend
      have := stepBudget_mono (show TableStore.rowTotal stores.data ≤ rows by omega) step
      exact ⟨n + m, by omega, calls ++ calls', b, calls'', after, e, h₁.trans h₂, hend⟩

end

/-! ## whole executions -/

theorem budget_eq (rows : Nat) (e : Execution) : e.budget rows = (e.agenda.map (stepBudget rows)).sum + 1 := by
  rw [List.sum_eq_foldr, List.foldr_map]; rfl

section

variable {limits : Limits} (hl : limits.Sound) {stores : Stores MemoryStore η} (hw : stores.data.WellFiled)
  {ops : List Operation} {rows : Nat} (hrows : TableStore.rowTotal stores.data + ops.length ≤ rows)

include hl hw hrows

/-- A plan that the store takes is carried out within the budget, and leaves nothing to be done. -/
theorem plan_path (files : FileReader MemoryStore) (made : Nat) {after : MemoryStore}
    (he : effects stores.data (planSteps limits ops) = some after) :
    ∃ n < (start limits ops).budget rows, ∃ calls made' stats',
      Path files .calm n ⟨made, stores, start limits ops⟩ calls
        (config limits made' (stores.withData after) [] stats') := by
  have hwrites := writes_planSteps limits ops
  obtain ⟨n, hn, calls, made', stats', h⟩ := agenda_path files made Stats.zero [] hl hw (fun _ => fresh_planSteps)
    (show _ ≤ rows by omega) he
  rw [List.append_nil] at h
  have hbudget : (start limits ops).budget rows = ((planSteps limits ops).map (stepBudget rows)).sum + 1 :=
    budget_eq rows _
  exact ⟨n, by omega, calls, made', stats', h⟩

theorem plan_ends (files : FileReader MemoryStore) (made : Nat)
    (he : effects stores.data (planSteps limits ops) = none) :
    ∃ n < (start limits ops).budget rows, ∃ calls b calls' after e,
      Path files .calm n ⟨made, stores, start limits ops⟩ calls b ∧
        Ends files .calm b calls' (stores.withData after) (.error (.store e) : Except MigrateError Stats) := by
  have hwrites := writes_planSteps limits ops
  obtain ⟨n, hn, calls, b, calls', after, e, h, hend⟩ := agenda_ends files made Stats.zero [] hl hw
    (fun _ => fresh_planSteps) (show _ ≤ rows by omega) he
  rw [List.append_nil] at h
  have hbudget : (start limits ops).budget rows = ((planSteps limits ops).map (stepBudget rows)).sum + 1 :=
    budget_eq rows _
  exact ⟨n, by omega, calls, b, calls', after, e, h, hend⟩

end

theorem rowTotal_data_le (stores : Stores MemoryStore η) : TableStore.rowTotal stores.data ≤ stores.rowTotal := by
  cases stores with
  | shared s => exact Nat.le_refl _
  | separate s h =>
    show TableStore.rowTotal s ≤ TableStore.rowTotal s + TableStore.rowTotal h
    omega

end Execution

/-! ## executions and their meaning -/

section

variable {η : Type} [TableStore η] {limits : Limits} (hl : limits.Sound) {stores : Stores MemoryStore η}
  (hw : stores.data.WellFiled) (ops : List Operation)

include hl hw

/-- An execution ends. It leaves the store with the effects of its plan if there are any, or else tells of a refusal. -/
theorem execute_effects :
    (∃ after calls stats, effects stores.data (planSteps limits ops) = some after ∧
      execute .calm limits ops stores = ⟨calls, stores.withData after, some (.ok stats)⟩) ∨
    (effects stores.data (planSteps limits ops) = none ∧
      ∃ calls after e, execute .calm limits ops stores = ⟨calls, stores.withData after, some (.error (.store e))⟩) := by
  have hrows : TableStore.rowTotal stores.data + ops.length ≤ stores.rowTotal + ops.length := by
    have := Execution.rowTotal_data_le stores
    omega
  rcases he : effects stores.data (planSteps limits ops) with _ | after
  · obtain ⟨n, hn, calls, b, calls', after, e, h, hend⟩ :=
      Execution.plan_ends hl hw hrows (fun _ _ => .error .notFound) 0 he
    exact Or.inr ⟨rfl, calls ++ calls', after, e, h.follow_ends hend hn⟩
  · obtain ⟨n, hn, calls, made, stats, h⟩ := Execution.plan_path hl hw hrows (fun _ _ => .error .notFound) 0 he
    have hend : Ends (fun _ _ => .error .notFound) .calm
        (Execution.config limits made (stores.withData after) [] stats) [] _ (.ok stats) := .done rfl
    exact Or.inl ⟨after, calls ++ [], stats, rfl, h.follow_ends hend hn⟩

end

/-- Carrying a migration out in batches and pages is applying its lines one after another, table by table. It always
    ends; it succeeds exactly when no line fails; and then every table it names is there with exactly the rows that
    its lines make of those it had, and the other tables are as they were. -/
theorem execute_eq_lineByLine {s : MemoryStore} (h : ReachableFrom .empty s) (batch page : Nat) (ops : List Operation) :
    ∃ calls after outcome,
      execute .calm (.within batch page) ops (.shared s : Stores MemoryStore MemoryStore) =
        ⟨calls, .shared after, some outcome⟩ ∧
      ((∃ stats, outcome = .ok stats) ↔
        ∀ t ∈ ops.map (·.table), (lineByLine (s.rowsOf t) (changesOf ops t)).isSome) ∧
      ((∃ stats, outcome = .ok stats) → ∀ t, after.tables.get? t =
        if t ∈ ops.map (·.table) then lineByLine (s.rowsOf t) (changesOf ops t) else s.tables.get? t) := by
  have hl := Limits.within_sound batch page
  have hw : (Stores.shared s : Stores MemoryStore MemoryStore).data.WellFiled := MemoryStore.wellFiled_of_reachable h
  rcases effects_planSteps hl ops s with ⟨after, he, hin, hout⟩ | ⟨he, t, ht, hnone⟩
  · rcases execute_effects hl hw ops with ⟨after', calls, stats, he', hx⟩ | ⟨he', -⟩
    · cases he.symm.trans he'
      have hall : ∀ t ∈ ops.map (·.table), (lineByLine (s.rowsOf t) (changesOf ops t)).isSome := by
        intro t ht
        obtain ⟨rows, hr, -⟩ := hin t ht
        rw [hr]; rfl
      refine ⟨calls, after, .ok stats, hx, ?_, ?_⟩
      · constructor
        · intro _; exact hall
        · intro _; exact ⟨stats, rfl⟩
      · intro _ t
        by_cases ht : t ∈ ops.map (·.table)
        · obtain ⟨rows, hr, ha⟩ := hin t ht
          rw [if_pos ht, ha, hr]
        · rw [if_neg ht]; exact hout t ht
    · cases he.symm.trans he'
  · rcases execute_effects hl hw ops with ⟨after', -, -, he', -⟩ | ⟨-, calls, after, e, hx⟩
    · cases he.symm.trans he'
    · refine ⟨calls, after, .error (.store e), hx, ?_, ?_⟩
      · constructor
        · rintro ⟨stats, hok⟩; cases hok
        · intro hall
          have := hall t ht
          rw [hnone] at this; cases this
      · rintro ⟨stats, hok⟩; cases hok

def oneRow : MemoryStore :=
  let s := (TableStore.perform MemoryStore.empty (.ensureTable "t")).2
  (TableStore.perform s (.submitBatch "t" "p" [⟨.add, .bare ⟨"p", "old"⟩⟩])).2

theorem oneRow_reachable : ReachableFrom .empty oneRow := .call (.call .refl _) _

def emptiedBetween : List Operation :=
  [⟨"t", .row .add (.bare ⟨"p", "new"⟩)⟩, ⟨"u", .deleteAll⟩, ⟨"t", .deleteAll⟩, ⟨"t", .row .add (.bare ⟨"q", "new"⟩)⟩,
    ⟨"t", .updateAll ⟨.ofList [("a", .bool true)]⟩⟩]

/-- A row written before its table is emptied stays and one that was there goes, with one action to a batch and one row
    to a page. -/
theorem execute_emptiedBetween :
    ReachableFrom .empty oneRow ∧ ∃ calls after outcome,
      execute .calm (.within 0 0) emptiedBetween (.shared oneRow : Stores MemoryStore MemoryStore) =
        ⟨calls, .shared after, some outcome⟩ ∧
      (∃ stats, outcome = .ok stats) ∧ after.tables.get? "u" = some .empty ∧
      (after.tables.get? "t").map (·.values) =
        some [⟨⟨"p", "new"⟩, .ofList [("a", .bool true)]⟩, ⟨⟨"q", "new"⟩, .ofList [("a", .bool true)]⟩] := by
  obtain ⟨calls, after, outcome, hx, hok, hrows⟩ := execute_eq_lineByLine oneRow_reachable 0 0 emptiedBetween
  have hok := hok.mpr (by decide)
  refine ⟨oneRow_reachable, calls, after, outcome, hx, hok, (hrows hok "u").trans (by decide), ?_⟩
  rw [hrows hok "t"]
  decide

end TableMigrations
