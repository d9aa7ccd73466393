/-
  TableMigrations.Proofs.Upserts — operations that can be taken up again after any of their calls.

  Upserts and emptyings of tables are such operations. Of each property the last upsert that speaks of it counts, so one
  of them done beforehand changes nothing (`foldl_overlay_of_mem`), and an emptying makes up for all that was there.
  Every call of such operations leaves a store in which they come out as they would have without (`Alike`), and so does
  any number of calls: carried out again from there they succeed and leave the same tables (`execute_alike`).
-/
import TableMigrations.Proofs.Ledger

namespace TableMigrations

def ActionKind.isUpsert : ActionKind → Bool
  | .upsertMerge | .upsertReplace => true
  | .add | .updateMerge | .updateReplace | .delete => false

/-- Whether a change does the same when it is done again: an upsert, or the emptying of the table. -/
def Change.isRepeatable : Change → Bool
  | .row kind _ => kind.isUpsert
  | .deleteAll => true
  | .updateAll _ => false

/-! ## one row -/

def overlay (p : Properties) (a : BatchAction) : Properties :=
  match a.kind with
  | .upsertMerge => p.insertAll a.entity.properties
  | _ => a.entity.properties

def propertiesOf (row : Option Entity) : Properties := (row.map (·.properties)).getD .empty

theorem insertAll_empty (p : Properties) : SortedMap.empty.insertAll p = p := by
  apply SortedMap.ext_get?
  intro name
  rw [SortedMap.get?_insertAll]
  exact Option.or_none

theorem rule_upsert {a : BatchAction} (ha : a.kind.isUpsert = true) {row : Option Entity}
    (hk : ∀ e, row = some e → e.key = a.entity.key) :
    a.kind.rule a.entity row = some (some ⟨a.entity.key, overlay (propertiesOf row) a⟩) := by
  obtain ⟨kind, e⟩ := a
  cases kind with
  | upsertReplace => rfl
  | upsertMerge =>
    cases row with
    | none =>
      show some (some e) = some (some ⟨e.key, SortedMap.empty.insertAll e.properties⟩)
      rw [insertAll_empty]
    | some old =>
      show some (some (old.merge e)) = some (some ⟨e.key, old.properties.insertAll e.properties⟩)
      rw [← hk old rfl]
      rfl
  | add | updateMerge | updateReplace | delete => cases ha

theorem foldlM_upserts {k : RowKey} {l : List BatchAction} (hl : ∀ a ∈ l, a.kind.isUpsert = true ∧ a.entity.key = k)
    (hne : l ≠ []) {row : Option Entity} (hk : ∀ e, row = some e → e.key = k) :
    l.foldlM (fun row a => a.kind.rule a.entity row) row = some (some ⟨k, l.foldl overlay (propertiesOf row)⟩) := by
  induction l generalizing row with
  | nil => exact absurd rfl hne
  | cons a r ih =>
    obtain ⟨⟨ha, rfl⟩, hr⟩ := List.forall_mem_cons.mp hl
    rw [List.foldlM_cons, rule_upsert ha hk]
    by_cases hnil : r = []
    · subst hnil
      rfl
    · refine (ih hr hnil ?_).trans rfl
      intro e he
      cases he
      rfl

/-- Upserts settle a property if one of them speaks of it, as one that replaces the row does of every property. -/
def Settles (l : List BatchAction) (name : String) : Prop :=
  ∃ a ∈ l, a.kind ≠ .upsertMerge ∨ a.entity.properties.get? name ≠ none

theorem get?_overlay (p : Properties) (a : BatchAction) (name : String) :
    (overlay p a).get? name = p.get? name ∨ a.kind ≠ .upsertMerge ∨ a.entity.properties.get? name ≠ none := by
  by_cases hkind : a.kind = .upsertMerge
  · rcases hname : a.entity.properties.get? name with _ | v
    · left
      simp only [overlay, hkind, SortedMap.get?_insertAll, hname, Option.none_or]
    · right
      right
      simp
  · exact Or.inr (Or.inl hkind)

/-- Upserts make the same of properties that differ only where they settle them. -/
theorem foldl_overlay_congr {l : List BatchAction} {p q : Properties}
    (h : ∀ name, p.get? name = q.get? name ∨ Settles l name) : l.foldl overlay p = l.foldl overlay q := by
  induction l generalizing p q with
  | nil =>
    apply SortedMap.ext_get?
    intro name
    rcases h name with heq | ⟨a, ha, -⟩
    · exact heq
    · cases ha
  | cons a r ih =>
    rw [List.foldl_cons, List.foldl_cons]
    apply ih
    intro name
    by_cases hkind : a.kind = .upsertMerge
    · simp only [overlay, hkind, SortedMap.get?_insertAll]
      rcases h name with heq | ⟨b, hb, hsettles⟩
      · exact Or.inl (by rw [heq])
      · rcases List.mem_cons.mp hb with rfl | hb
        · -- `a` itself says what the property is
          obtain ⟨v, hv⟩ := Option.ne_none_iff_exists'.mp (hsettles.resolve_left (absurd hkind))
          exact Or.inl (by rw [hv]; rfl)
        · exact Or.inr ⟨b, hb, hsettles⟩
    · left
      unfold overlay
      split
      · rename_i he
        exact absurd he hkind
      · rfl

theorem foldl_overlay_of_mem {a : BatchAction} {l : List BatchAction} (ha : a ∈ l) (p : Properties) :
    l.foldl overlay (overlay p a) = l.foldl overlay p := by
  apply foldl_overlay_congr
  intro name
  exact (get?_overlay p a name).imp_right fun h => ⟨a, ha, h⟩

/-! ## the rows of a table -/

namespace Rows

variable {rows after : Rows} {l : List BatchAction} (hl : ∀ a ∈ l, a.kind.isUpsert = true)

theorem write_upsert (hf : WellFiled rows) {a : BatchAction} (ha : a.kind.isUpsert = true) :
    write rows a.kind a.entity =
      some (file rows a.entity.key
        (some ⟨a.entity.key, overlay (propertiesOf (rows.get? a.entity.key)) a⟩)) := by
  rw [write, rule_upsert ha (hf a.entity.key)]
  rfl

include hl

theorem writeAll_upserts (hf : WellFiled rows) : ∃ after, writeAll rows l = some after := by
  induction l generalizing rows with
  | nil => exact ⟨rows, rfl⟩
  | cons a r ih =>
    obtain ⟨ha, hr⟩ := List.forall_mem_cons.mp hl
    have hw := write_upsert hf ha
    rw [writeAll_cons, hw]
    exact ih hr (hf.write hw)

theorem writeAll_write (hf : WellFiled rows) {a : BatchAction} (ha : a ∈ l)
    (hw : write rows a.kind a.entity = some after) : writeAll after l = writeAll rows l := by
  apply Option.ext
  intro final
  show writeAll after l = some final ↔ writeAll rows l = some final
  rw [writeAll_eq_some_iff, writeAll_eq_some_iff]
  apply forall_congr'
  intro k
  rw [write_upsert hf (hl a ha)] at hw
  cases hw
  by_cases hk : k = a.entity.key
  · have hmem : a ∈ l.filter (·.entity.key = k) := List.mem_filter.mpr ⟨ha, decide_eq_true hk.symm⟩
    have hupserts : ∀ b ∈ l.filter (·.entity.key = k), b.kind.isUpsert = true ∧ b.entity.key = k := by
      intro b hb
      obtain ⟨hb, hkey⟩ := List.mem_filter.mp hb
      exact ⟨hl b hb, of_decide_eq_true hkey⟩
    have hne := List.ne_nil_of_mem hmem
    rw [get?_file, if_pos hk, foldlM_upserts hupserts hne (hf k), foldlM_upserts hupserts hne]
    · rw [← hk]
      show some (some (Entity.mk k (List.foldl overlay (overlay _ a) _))) = _ ↔ _
      rw [foldl_overlay_of_mem hmem]
    · intro e he
      cases he
      exact hk.symm
  · rw [get?_file, if_neg hk]

/-- Upserts that are among those to come, whichever have been done in whatever order, change nothing. -/
theorem writeAll_writeAll (hf : WellFiled rows) {done : List BatchAction} (hd : ∀ a ∈ done, a ∈ l)
    (hw : writeAll rows done = some after) : writeAll after l = writeAll rows l := by
  induction done generalizing rows with
  | nil => cases hw; rfl
  | cons a r ih =>
    obtain ⟨ha, hr⟩ := List.forall_mem_cons.mp hd
    rw [writeAll_cons] at hw
    obtain ⟨mid, hm, hw⟩ := Option.bind_eq_some_iff.mp hw
    rw [ih (hf.write hm) hr hw, writeAll_write hl hf ha hm]

end Rows

/-! ## the changes of a table -/

theorem isUpsert_of_mem_rowActions {changes : List Change} (h : ∀ c ∈ changes, c.isRepeatable = true)
    {a : BatchAction} (ha : a ∈ rowActions changes) : a.kind.isUpsert = true := by
  obtain ⟨⟨kind, e⟩, hw, rfl⟩ := List.mem_map.mp ha
  obtain ⟨c, hc, he⟩ := List.mem_filterMap.mp hw
  have hrepeatable := h c hc
  cases c with
  | row kind' e' =>
    cases he
    cases kind <;> first | rfl | cases hrepeatable
  | updateAll | deleteAll => cases he

theorem segmentsFrom_repeatable {changes : List Change} (h : ∀ c ∈ changes, c.isRepeatable = true)
    (gathered : List Change) : segmentsFrom gathered changes = [⟨gathered ++ changes, none⟩] := by
  induction changes generalizing gathered with
  | nil => rw [List.append_nil]; rfl
  | cons c r ih =>
    obtain ⟨hc, hr⟩ := List.forall_mem_cons.mp h
    cases c with
    | row kind e => rw [segmentsFrom, ih hr]; simp
    | deleteAll => rw [segmentsFrom, ih hr]; simp
    | updateAll patch => cases hc

/-- Repeatable changes empty the table first, if they do at all, and then do their row writes. -/
theorem lineByLine_repeatable {changes : List Change} (h : ∀ c ∈ changes, c.isRepeatable = true) (rows : Rows) :
    lineByLine rows changes = Rows.writeAll ((Segment.mk changes none).base rows) (rowActions changes) := by
  rw [lineByLine, segmentsFrom_repeatable h, List.nil_append, List.foldlM_cons, writeAll_rowActions]
  show ((_ : Option Rows).map id).bind some = _
  rw [Option.map_id, Option.bind_fun_some]
  rfl

theorem wellFiled_base {rows : Rows} (hf : Rows.WellFiled rows) (s : Segment) : Rows.WellFiled (s.base rows) := by
  unfold Segment.base
  split
  · exact Rows.wellFiled_empty
  · exact hf

/-! ## the tables of a store -/

theorem isRepeatable_of_mem_changesOf {ops : List Operation} (hr : ∀ op ∈ ops, op.change.isRepeatable = true)
    (t : String) : ∀ c ∈ changesOf ops t, c.isRepeatable = true := by
  intro c hc
  obtain ⟨op, hop, rfl⟩ := List.mem_map.mp hc
  exact hr op (List.mem_of_mem_filter hop)

/-- Stores that operations leave alike: they make the same of the tables they name, and the others are the same. -/
structure Alike (ops : List Operation) (s t : MemoryStore) : Prop where
  named : ∀ u ∈ ops.map (·.table),
    lineByLine (s.rowsOf u) (changesOf ops u) = lineByLine (t.rowsOf u) (changesOf ops u)
  others : ∀ u ∉ ops.map (·.table), s.tables.get? u = t.tables.get? u

theorem Alike.refl (ops : List Operation) (s : MemoryStore) : Alike ops s s := ⟨fun _ _ => rfl, fun _ _ => rfl⟩

theorem Alike.trans {ops : List Operation} {r s t : MemoryStore} (h : Alike ops r s) (h' : Alike ops s t) :
    Alike ops r t where
  named u hu := (h.named u hu).trans (h'.named u hu)
  others u hu := (h.others u hu).trans (h'.others u hu)

/-- The calls of repeatable operations: a table that is named is made sure of, deleted if it is to be emptied, or takes
    some of its row writes. -/
inductive Planned (ops : List Operation) : Call → Prop
  | ensure {t : String} (ht : t ∈ ops.map (·.table)) : Planned ops (.ensureTable t)
  | delete {t : String} (ht : t ∈ ops.map (·.table)) (h : .deleteAll ∈ changesOf ops t) : Planned ops (.deleteTable t)
  | submit {t p : String} {actions : List BatchAction} (ht : t ∈ ops.map (·.table))
    (ha : ∀ a ∈ actions, a ∈ rowActions (changesOf ops t)) : Planned ops (.submitBatch t p actions)

theorem Planned.table_mem {ops : List Operation} {c : Call} (h : Planned ops c) : c.table ∈ ops.map (·.table) := by
  cases h <;> assumption

section

variable {ops : List Operation} (hr : ∀ op ∈ ops, op.change.isRepeatable = true)

include hr

/-- A planned call changes nothing about what the operations make of its table. -/
theorem lineByLine_perform {s : MemoryStore} (hw : s.WellFiled) {c : Call} (h : Planned ops c) :
    lineByLine ((TableStore.perform s c).2.rowsOf c.table) (changesOf ops c.table) =
      lineByLine (s.rowsOf c.table) (changesOf ops c.table) := by
  cases h with
  | @ensure t ht =>
    have hsame : (s.ensureTable t).rowsOf t = s.rowsOf t := by
      rw [s.ensureTable_eq, MemoryStore.rowsOf_withRows, if_pos rfl]
    exact congrArg (lineByLine · (changesOf ops t)) hsame
  | @delete t ht hdelete =>
    have hchanges := isRepeatable_of_mem_changesOf hr t
    show lineByLine ((s.deleteTable t).rowsOf t) (changesOf ops t) = lineByLine (s.rowsOf t) (changesOf ops t)
    rw [lineByLine_repeatable hchanges, lineByLine_repeatable hchanges]
    simp only [Segment.base, if_pos hdelete]
  | @submit t p actions ht ha =>
    have hchanges := isRepeatable_of_mem_changesOf hr t
    show lineByLine ((s.submitBatch t p actions).2.rowsOf t) (changesOf ops t) =
      lineByLine (s.rowsOf t) (changesOf ops t)
    rcases s.submitBatch_cases t p actions with ⟨e, hs⟩ | ⟨rows, after, hrows, hwrite, hs⟩
    · rw [hs]
    · rw [hs, MemoryStore.rowsOf_withRows, if_pos rfl, MemoryStore.rowsOf_eq hrows]
      rw [lineByLine_repeatable hchanges, lineByLine_repeatable hchanges]
      by_cases hdelete : .deleteAll ∈ changesOf ops t
      · simp only [Segment.base, if_pos hdelete]
      · simp only [Segment.base, if_neg hdelete]
        exact Rows.writeAll_writeAll (fun _ => isUpsert_of_mem_rowActions hchanges) (hw.rows hrows) ha hwrite

theorem alike_perform {s : MemoryStore} (hw : s.WellFiled) {c : Call} (h : Planned ops c) :
    Alike ops (TableStore.perform s c).2 s where
  named u _ := by
    by_cases hu : u = c.table
    · rw [hu]
      exact lineByLine_perform hr hw h
    · rw [MemoryStore.rowsOf, MemoryStore.rowsOf, MemoryStore.perform_frame s c hu]
  others u hu := by
    apply MemoryStore.perform_frame
    intro he
    rw [he] at hu
    exact hu h.table_mem

/-- An execution of repeatable operations makes planned calls only: there is nothing to scan. -/
theorem confined_planned (limits : Limits) :
    Execution.Confined (fun e => ∀ step ∈ e.agenda, ∃ t ∈ ops.map (·.table),
      step.Serves limits t (rowActions (changesOf ops t)) (changesOf ops t)) (Planned ops) := by
  intro e h
  obtain ⟨limits', agenda, stats⟩ := e
  cases agenda with
  | nil => exact Or.inl ⟨stats, rfl⟩
  | cons step r =>
    obtain ⟨⟨t, ht, hs⟩, hrest⟩ := List.forall_mem_cons.mp h
    cases hs with
    | prepare | recreate => exact Or.inr (Or.inr ⟨_, _, rfl, .ensure ht, fun _ => hrest⟩)
    | drop hdelete => exact Or.inr (Or.inr ⟨_, _, rfl, .delete ht hdelete, fun _ => hrest⟩)
    | submit he ha =>
      subst he
      exact Or.inr (Or.inr ⟨_, _, rfl, .submit ht ha, fun _ => hrest⟩)
    | scan hpatch => cases isRepeatable_of_mem_changesOf hr t _ hpatch

theorem planned_of_mem_execute {σ η : Type} [TableStore σ] [TableStore η] {cond : Conditions} {limits : Limits}
    {stores : Stores σ η} {x : Target × Call} (h : x ∈ (execute cond limits ops stores).calls) :
    x.1 = .data ∧ Planned ops x.2 :=
  (confined_planned hr limits).follow (a := ⟨0, stores, .start limits ops⟩) (fun _ => serves_planSteps) x h

/-! ## executions -/

variable {η : Type} [TableStore η]

theorem replay_planned {stores : Stores MemoryStore η} (hw : stores.data.WellFiled) {calls : List (Target × Call)}
    (hc : ∀ x ∈ calls, x.1 = .data ∧ Planned ops x.2) (made : Nat) :
    ∃ s, stores.replay .calm made calls = stores.withData s ∧ s.WellFiled ∧ Alike ops s stores.data := by
  induction calls generalizing stores made with
  | nil => exact ⟨stores.data, stores.withData_data.symm, hw, .refl ops stores.data⟩
  | cons x r ih =>
    obtain ⟨⟨hdata, hplanned⟩, hrest⟩ := List.forall_mem_cons.mp hc
    obtain ⟨target, c⟩ := x
    cases hdata
    have hstep : (performUnder .calm made stores .data c).2 =
        stores.withData (TableStore.perform stores.data c).2 := congrArg Prod.snd (stores.perform_data c)
    have hmid : (stores.withData (TableStore.perform stores.data c).2).data.WellFiled := by
      rw [stores.data_withData]
      exact hw.perform c
    obtain ⟨s, hs, hfiled, halike⟩ := ih hmid hrest (made + 1)
    rw [stores.data_withData] at halike
    refine ⟨s, ?_, hfiled, halike.trans (alike_perform hr hw hplanned)⟩
    rw [Stores.replay, hstep, hs, stores.withData_withData]

/-- An execution of repeatable operations succeeds, and makes of every table that they name what they say. -/
theorem execute_repeatable {limits : Limits} (hl : limits.Sound) {stores : Stores MemoryStore η}
    (hw : stores.data.WellFiled) :
    ∃ calls after stats, execute .calm limits ops stores = ⟨calls, stores.withData after, some (.ok stats)⟩ ∧
      (∀ u ∈ ops.map (·.table), after.tables.get? u = lineByLine (stores.data.rowsOf u) (changesOf ops u)) ∧
      ∀ u ∉ ops.map (·.table), after.tables.get? u = stores.data.tables.get? u := by
  rcases effects_planSteps hl ops stores.data with ⟨after, he, hin, hout⟩ | ⟨-, t, -, hnone⟩
  · rcases execute_effects hl hw ops with ⟨after', calls, stats, he', hx⟩ | ⟨he', -⟩
    · cases he.symm.trans he'
      refine ⟨calls, after, stats, hx, ?_, hout⟩
      intro u hu
      obtain ⟨rows, hrows, hafter⟩ := hin u hu
      rw [hafter, hrows]
    · cases he.symm.trans he'
  · have hchanges := isRepeatable_of_mem_changesOf hr t
    obtain ⟨rows, hsome⟩ := Rows.writeAll_upserts (fun _ => isUpsert_of_mem_rowActions hchanges)
      (wellFiled_base (hw t) ⟨changesOf ops t, none⟩)
    rw [lineByLine_repeatable hchanges, hsome] at hnone
    cases hnone

theorem execute_alike {limits : Limits} (hl : limits.Sound) {stores : Stores MemoryStore η}
    (hw : stores.data.WellFiled) {s : MemoryStore} (hs : s.WellFiled) (h : Alike ops s stores.data) :
    ∃ after, (∃ calls stats, execute .calm limits ops stores = ⟨calls, stores.withData after, some (.ok stats)⟩) ∧
      ∃ calls stats, execute .calm limits ops (stores.withData s) = ⟨calls, stores.withData after, some (.ok stats)⟩ := by
  have hw' : (stores.withData s).data.WellFiled := by
    rw [stores.data_withData]
    exact hs
  obtain ⟨calls, after, stats, hx, hin, hout⟩ := execute_repeatable hr hl hw
  obtain ⟨calls', after', stats', hx', hin', hout'⟩ := execute_repeatable hr hl hw'
  rw [stores.data_withData] at hin' hout'
  rw [stores.withData_withData] at hx'
  have hsame : after' = after := by
    apply MemoryStore.ext_tables
    intro u
    by_cases hu : u ∈ ops.map (·.table)
    · rw [hin' u hu, hin u hu, h.named u hu]
    · rw [hout' u hu, hout u hu, h.others u hu]
  rw [hsame] at hx'
  exact ⟨after, ⟨calls, stats, hx⟩, calls', stats', hx'⟩

end

end TableMigrations
