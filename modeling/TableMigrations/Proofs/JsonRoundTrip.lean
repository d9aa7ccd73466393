/-
  TableMigrations.Proofs.JsonRoundTrip — operations are read back from the texts that they are written as.

  In a format that loses nothing every part of an operation is found again in the node that it is written as, a double
  if the format's reader of numbers finds it in its own text (`Double.KeptBy`). So the operation can be read off its
  node (`Operation.ofNode?_toNode`), the node is one that is written of values (`Operation.written_toNode`) and hence
  can be read off its text, and the texts of two operations differ (`Operation.readText?_writeText`). JSON is such a
  format (`Json.lawful_format`): names and strings are escaped without loss, and the trees of values are well formed.
-/
import TableMigrations.Proofs.JsonText
import TableMigrations.Proofs.RoundTrip

namespace TableMigrations

theorem mapM_eq_some {α β : Type} {f : α → Option β} {g : α → β} {l : List α} (h : ∀ a ∈ l, f a = some (g a)) :
    l.mapM f = some (l.map g) := by
  induction l with
  | nil => rfl
  | cons a l ih =>
    rw [List.mapM_cons, h a List.mem_cons_self, ih fun b hb => h b (List.mem_cons_of_mem _ hb)]
    rfl

theorem TextFormat.Lawful.record?_of_names {F : TextFormat} (hF : F.Lawful) {names : List String}
    {fields : List (String × F.Node)} (hn : fields.map (·.1) = names) (h : names.Nodup) :
    F.record? names (F.record fields) = some (fields.map (·.2)) := by
  subst hn
  exact hF.record?_record fields h

/-! ## values -/

section

variable {F : TextFormat}

instance (x : Double) : Decidable (x.KeptBy F) :=
  decidable_of_iff (x.isFinite = true ∧ (F.read? (F.write (F.double x))).bind F.double? = some x)
    ⟨fun h => ⟨h.1, h.2⟩, fun h => ⟨h.finite, h.found⟩⟩

theorem Double.KeptBy.double? (hF : F.Lawful) {x : Double} (h : x.KeptBy F) : F.double? (F.double x) = some x := by
  have hfound := h.found
  rwa [hF.read?_write _ (.double x)] at hfound

def Value.KeptBy (F : TextFormat) : Value → Prop
  | .double x => x.KeptBy F
  | .string _ | .int64 _ | .bool _ => True

instance : DecidablePred (Value.KeptBy F)
  | .double x => inferInstanceAs (Decidable (x.KeptBy F))
  | .string _ | .int64 _ | .bool _ => .isTrue trivial

variable (hF : F.Lawful)

include hF

theorem Value.ofNode?_toNode {v : Value} (h : v.KeptBy F) : ofNode? F (v.toNode F) = some v := by
  cases v with
  | string s => simp [ofNode?, toNode, hF.variant?_variant, hF.string?_string]
  | int64 n => simp [ofNode?, toNode, hF.variant?_variant, hF.int64?_int64]
  | double x => simp [ofNode?, toNode, hF.variant?_variant, Double.KeptBy.double? hF h]
  | bool b => simp [ofNode?, toNode, hF.variant?_variant, hF.bool?_bool]

theorem Properties.ofNode?_toNode {properties : Properties} (h : ∀ p ∈ properties.entries, p.2.KeptBy F) :
    ofNode? F (properties.toNode F) = some properties := by
  have hnames : ((properties.entries.map fun p => (p.1, p.2.toNode F)).map (·.1)).Nodup := by
    rw [List.map_map]
    exact properties.nodup_keys
  have hentries : (properties.entries.map fun p => (p.1, p.2.toNode F)).mapM
      (fun e => (Value.ofNode? F e.2).map fun v => (e.1, v)) = some properties.entries := by
    rw [List.mapM_map, mapM_eq_some (g := id), List.map_id]
    intro p hp
    rw [Function.comp_apply, Value.ofNode?_toNode hF (h p hp)]
    rfl
  rw [ofNode?, toNode, hF.map?_map _ hnames, Option.bind_eq_bind, Option.bind_some, hentries]
  exact congrArg some (SortedMap.ofList_entries properties)

/-! ## operations -/

theorem Entity.ofNode?_toNode {e : Entity} (h : ∀ p ∈ e.properties.entries, p.2.KeptBy F) :
    ofNode? F (e.toNode F) = some e := by
  rw [ofNode?, toNode, hF.record?_of_names (by rfl) (by decide)]
  simp only [List.map_cons, List.map_nil, bind, Option.bind_some, hF.string?_string, Properties.ofNode?_toNode hF h]
  rfl

theorem Patch.ofNode?_toNode {patch : Patch} (h : ∀ p ∈ patch.properties.entries, p.2.KeptBy F) :
    ofNode? F (patch.toNode F) = some patch := by
  rw [ofNode?, toNode, hF.record?_of_names (by rfl) (by decide)]
  simp only [List.map_cons, List.map_nil, bind, Option.bind_some, Properties.ofNode?_toNode hF h]
  rfl

omit hF in
theorem Mode.ofName?_name (mode : Mode) : ofName? mode.name = some mode := by
  cases mode with
  | row kind => cases kind <;> decide
  | updateAll | deleteAll => decide

namespace Operation

def KeptBy (F : TextFormat) (op : Operation) : Prop := ∀ p ∈ op.properties.entries, p.2.KeptBy F

omit hF in
instance (op : Operation) : Decidable (op.KeptBy F) :=
  inferInstanceAs (Decidable (∀ p ∈ op.properties.entries, p.2.KeptBy F))

/-- An operation is read from the node that it is written as. -/
theorem ofNode?_toNode {op : Operation} (h : op.KeptBy F) : ofNode? F (op.toNode F) = some op := by
  obtain ⟨table, change⟩ := op
  have hchange : Change.ofNode? F (change.toNode F) = some change := by
    cases change with
    | row kind e =>
      simp [Change.toNode, Change.ofNode?, hF.variant?_variant, Mode.ofName?_name, Entity.ofNode?_toNode hF h]
    | updateAll patch =>
      simp [Change.toNode, Change.ofNode?, hF.variant?_variant, Mode.ofName?_name, Patch.ofNode?_toNode hF h]
    | deleteAll => simp [Change.toNode, Change.ofNode?, hF.variant?_bareVariant, Mode.ofName?_name]
  rw [ofNode?, toNode, hF.record?_of_names (by rfl) (by decide)]
  simp only [List.map_cons, List.map_nil, bind, Option.bind_some, hF.string?_string, hchange]
  rfl

end Operation

end

/-! ## texts -/

section

variable (F : TextFormat)

theorem Value.written_toNode (v : Value) : F.Written (v.toNode F) := by
  cases v with
  | string s => exact .variant _ (.string s)
  | int64 n => exact .variant _ (.int64 n)
  | double x => exact .variant _ (.double x)
  | bool b => exact .variant _ (.bool b)

theorem Properties.written_toNode (properties : Properties) : F.Written (properties.toNode F) := by
  refine .map fun e he => ?_
  obtain ⟨p, -, rfl⟩ := List.mem_map.mp he
  exact p.2.written_toNode F

theorem Entity.written_toNode (e : Entity) : F.Written (e.toNode F) := by
  refine .record ?_
  simp only [List.forall_mem_cons]
  exact ⟨.string _, .string _, Properties.written_toNode F e.properties, by simp⟩

theorem Patch.written_toNode (patch : Patch) : F.Written (patch.toNode F) := by
  refine .record ?_
  simp only [List.forall_mem_cons]
  exact ⟨Properties.written_toNode F patch.properties, by simp⟩

theorem Change.written_toNode (change : Change) : F.Written (change.toNode F) := by
  cases change with
  | row kind e => exact .variant _ (e.written_toNode F)
  | updateAll patch => exact .variant _ (patch.written_toNode F)
  | deleteAll => exact .bareVariant _

namespace Operation

/-- Whatever the operation, its node is one that is written of values. -/
theorem written_toNode (op : Operation) : F.Written (op.toNode F) := by
  refine .record ?_
  simp only [List.forall_mem_cons]
  exact ⟨.string _, op.change.written_toNode F, by simp⟩

variable {F}

theorem readText?_of_kept (hF : F.Lawful) {op : Operation} (h : op.KeptBy F) :
    readText? F (op.writeText F) = some op := by
  rw [readText?, writeText, hF.read?_write _ (op.written_toNode F)]
  exact ofNode?_toNode hF h

end Operation

end

/-! ## JSON -/

namespace Json

theorem unescape?_name (s : String) : (unescape? (escape s.toList)).map String.ofList = some s := by
  rw [unescape?_escape, Option.map_some, String.ofList_toList]

theorem fields?_ofFields (fields : List (String × Json)) : (ofFields fields).fields? = some fields := by
  rw [ofFields, fields?, List.mapM_map, mapM_eq_some (g := id), List.map_id]
  intro f _
  rw [Function.comp_apply, unescape?_escape, Option.map_some, String.ofList_toList]
  rfl

theorem record?_ofFields (fields : List (String × Json)) (h : (fields.map (·.1)).Nodup) :
    (ofFields fields).record? (fields.map (·.1)) = some (fields.map (·.2)) := by
  show ((ofFields fields).fields?.bind fun all => (fields.map (·.1)).mapM (field? all)) = _
  rw [fields?_ofFields, Option.bind_some]
  refine (List.mapM_map ..).trans (mapM_eq_some fun f hf => ?_)
  have hone : fields.filter (·.1 == f.1) = [f] := filter_eq_singleton (·.1) h hf
  rw [Function.comp_apply, field?, hone]

theorem variant?_ofFields (name : String) (j : Json) : (ofFields [(name, j)]).variant? = some (name, some j) := by
  show (unescape? (escape name.toList)).map _ = _
  rw [unescape?_escape, Option.map_some, String.ofList_toList]

theorem variant?_ofString (name : String) : (ofString name).variant? = some (name, none) := by
  show (unescape? (escape name.toList)).map _ = _
  rw [unescape?_escape, Option.map_some, String.ofList_toList]

theorem wellFormed_ofFields {fields : List (String × Json)} (h : ∀ f ∈ fields, f.2.WellFormed) :
    (ofFields fields).WellFormed := by
  refine .object ?_ ?_
  · intro f hf
    obtain ⟨g, -, rfl⟩ := List.mem_map.mp hf
    exact ⟨g.1.toList, rfl⟩
  · intro f hf
    obtain ⟨g, hg, rfl⟩ := List.mem_map.mp hf
    exact h g hg

theorem wellFormed_of_written {j : format.Node} (h : format.Written j) : WellFormed j := by
  induction h with
  | string s => exact .string s.toList
  | int64 n => exact .number (Number.grammatical_ofInt n.toInt)
  | double x =>
    cases x with
    | finite negative c => exact .number (Number.grammatical_ofFinite negative _)
    | infinite | nan => exact .null
  | bool b => exact .bool b
  | map h ih | record h ih => exact wellFormed_ofFields ih
  | variant name h ih =>
    refine wellFormed_ofFields fun f hf => ?_
    rw [List.mem_singleton.mp hf]
    exact ih
  | bareVariant name => exact .string name.toList

theorem lawful_format : format.Lawful where
  read?_write j h := by
    show read? (String.ofList j.compact).toList = some j
    rw [String.toList_ofList]
    exact read?_compact (wellFormed_of_written h)
  string?_string := unescape?_name
  int64?_int64 := Number.toInt64?_ofInt
  bool?_bool _ := rfl
  map?_map entries _ := fields?_ofFields entries
  record?_record := record?_ofFields
  variant?_variant := variant?_ofFields
  variant?_bareVariant := variant?_ofString

end Json

namespace Operation

/-- Texts with all that has to be escaped, the least integer, and doubles that are written in full, with an exponent and
    with a sign only. -/
def escapedUpsert : Operation :=
  ⟨"t\"\\", .row .upsertMerge ⟨⟨"\u0001\t", "é😀\n"⟩, .ofList [("", .string "\"\\/\u001f\u007f"),
    ("a", .int64 (Int64.ofInt (-0x8000000000000000))), ("b", .double (.ofDecimal false 1 (-1))),
    ("c", .double (.ofDecimal true 15 299)), ("d", .double (.ofCode true 0)), ("e", .bool false)]⟩⟩

end Operation

end TableMigrations
