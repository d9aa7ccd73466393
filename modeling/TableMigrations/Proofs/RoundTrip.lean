/-
  TableMigrations.Proofs.RoundTrip — which operations are read back from their lines.

  A written field must not be empty and must not hold a separator: that is `Plain`, and every operation that was read
  is plain (`plain_of_parse`). Of a plain operation the line falls into the fields it was put together from
  (`Plain.splits`), so that what is left to ask is whether each value's text decodes to the value. All do but the
  infinities and not-a-number, which are written as words that no number is read from (`decodeAs_encode`,
  `decodeAs_encode_not_finite`). So a line that was accepted with a number too large for a double is written back as a
  line that is not accepted (`parse_render_of_parse`).
-/
import TableMigrations.Proofs.Grammar
import TableMigrations.Proofs.ShortestText

namespace TableMigrations

/-! ## texts without separators -/

def Unseparated (text : List Char) : Prop := ' ' ∉ text ∧ '|' ∉ text

theorem unseparated_append {l r : List Char} : Unseparated (l ++ r) ↔ Unseparated l ∧ Unseparated r := by
  simp only [Unseparated, List.mem_append, not_or]
  exact and_and_and_comm

theorem IsDigits.unseparated {ds : List Char} (h : IsDigits ds) : Unseparated ds :=
  ⟨not_mem_of_isDigits h rfl, not_mem_of_isDigits h rfl⟩

theorem SignText.unseparated {negative : Bool} {sign : List Char} (h : SignText negative sign) : Unseparated sign := by
  cases h <;> exact ⟨by decide, by decide⟩

theorem Tag.text_unseparated (tag : Tag) : Unseparated tag.text.toList := by
  cases tag <;> exact ⟨by decide, by decide⟩

def IsWord (s : String) : Prop := s ≠ "" ∧ ' ' ∉ s.toList

theorem toList_ne_nil {s : String} : s.toList ≠ [] ↔ s ≠ "" := not_congr String.toList_eq_nil_iff

/-! ## values -/

namespace Value

def Plain : Value → Prop
  | .string s => Unseparated s.toList
  | .int64 _ | .double _ | .bool _ => True

def Finite : Value → Prop
  | .double x => x.isFinite = true
  | .string _ | .int64 _ | .bool _ => True

instance : DecidablePred Finite
  | .double x => inferInstanceAs (Decidable (x.isFinite = true))
  | .string _ | .int64 _ | .bool _ => .isTrue trivial

theorem encode_unseparated {v : Value} (h : v.Plain) : Unseparated v.encode.1 := by
  cases v with
  | string s => exact h
  | bool b => cases b <;> exact ⟨by decide, by decide⟩
  | int64 n =>
    obtain ⟨negative, sign, ds, hs, -, hd, htext, -⟩ := integerText_reads n
    show Unseparated (integerText n.toInt)
    rw [htext, unseparated_append]
    exact ⟨hs.unseparated, hd.unseparated⟩
  | double x =>
    cases x with
    | finite negative c =>
      obtain ⟨sign, whole, fraction, hs, hw, hf, -, htext, -⟩ := Double.lineText_finite negative c
      show Unseparated (Double.finite negative c).lineText
      rw [htext, ← List.singleton_append, unseparated_append, unseparated_append, unseparated_append]
      exact ⟨hs.unseparated, hw.unseparated, ⟨by decide, by decide⟩, hf.unseparated⟩
    | infinite negative => cases negative <;> exact ⟨by decide, by decide⟩
    | nan => exact ⟨by decide, by decide⟩

theorem decodeAs_encode {v : Value} (h : v.Finite) : decodeAs v.encode.1 v.encode.2 = .ok (some v) := by
  cases v with
  | string s =>
    show Except.ok (some (Value.string (.ofList s.toList))) = _
    rw [String.ofList_toList]
  | bool b => cases b <;> rfl
  | int64 n =>
    have htext := integerText_reads n
    have hpoint : '.' ∉ integerText n.toInt := by
      obtain ⟨negative, sign, ds, hs, -, hd, hraw, -⟩ := htext
      rw [hraw, List.mem_append, not_or]
      exact ⟨hs.not_mem_point, not_mem_of_isDigits hd rfl⟩
    exact decodeAs_eq_ok_iff.mpr (.integer hpoint htext)
  | double x =>
    have htext := Double.lineText_reads h
    have hpoint : '.' ∈ x.lineText := by
      obtain ⟨negative, sign, whole, fraction, exponent, e, -, -, -, -, -, hraw, -⟩ := htext
      rw [hraw]
      simp
    exact decodeAs_eq_ok_iff.mpr (.double hpoint htext)

/-- The words for the infinities and not-a-number are not numbers. -/
theorem decodeAs_encode_not_finite {v : Value} (h : ¬ v.Finite) :
    decodeAs v.encode.1 v.encode.2 = .error (.invalidNumber (.ofList v.encode.1) .invalidDigit) := by
  cases v with
  | string | bool | int64 => exact absurd trivial h
  | double x =>
    cases x with
    | finite => exact absurd rfl h
    | infinite negative => cases negative <;> rfl
    | nan => rfl

/-- Exactly the finite values are read back from what is written of them. -/
theorem decode_encode_iff (v : Value) : decode v.encode.1 v.encode.2.text = .ok (some v) ↔ v.Finite := by
  have htag : decode v.encode.1 v.encode.2.text = decodeAs v.encode.1 v.encode.2 := by
    rw [decode, ofText?_eq_some_iff.mpr rfl]
  rw [htag]
  constructor
  · intro h
    by_contra hf
    rw [decodeAs_encode_not_finite hf] at h
    cases h
  · exact decodeAs_encode

theorem agrees_self {v : Value} (h : v.Finite) : v.agrees v = true := by
  refine agrees_of_ne_nan ?_
  rintro rfl
  cases h

theorem Plain.of_agrees {v w : Value} (hv : v.Plain) (h : v.agrees w = true) : w.Plain := by
  cases w with
  | string s =>
    cases v with
    | string t => exact eq_of_beq h ▸ hv
    | int64 | double | bool => cases h
  | int64 | double | bool => trivial

end Value

/-! ## properties -/

structure PlainProperty (p : String × Value) : Prop where
  named : p.1 ≠ ""
  name : Unseparated p.1.toList
  value : p.2.Plain

theorem splits_propertyToken {p : String × Value} (h : PlainProperty p) :
    Splits '|' (propertyToken p) [p.1.toList, p.2.encode.1, p.2.encode.2.text.toList] := by
  refine ⟨List.cons_ne_nil _ _, ?_, rfl⟩
  intro part hpart
  simp only [List.mem_cons, List.not_mem_nil, or_false] at hpart
  rcases hpart with rfl | rfl | rfl
  · exact h.name.2
  · exact (Value.encode_unseparated h.value).2
  · exact p.2.encode.2.text_unseparated.2

theorem propertyToken_word {p : String × Value} (h : PlainProperty p) :
    propertyToken p ≠ [] ∧ ' ' ∉ propertyToken p := by
  have htoken : propertyToken p = p.1.toList ++ '|' :: (p.2.encode.1 ++ '|' :: p.2.encode.2.text.toList) := by
    simp [propertyToken]
  rw [htoken]
  constructor
  · simp
  · simp only [List.mem_append, List.mem_cons, not_or]
    exact ⟨h.name.1, by decide, (Value.encode_unseparated h.value).1, by decide, p.2.encode.2.text_unseparated.1⟩

namespace Operation

theorem parseProperty_propertyToken {p : String × Value} (h : PlainProperty p) :
    parseProperty (propertyToken p) = (Value.decodeAs p.2.encode.1 p.2.encode.2).map (p.1, ·) := by
  have hname : p.1.toList ≠ [] := toList_ne_nil.mpr h.named
  have htag : Tag.ofText? p.2.encode.2.text = some p.2.encode.2 := ofText?_eq_some_iff.mpr rfl
  simp only [parseProperty, splitOn_eq_iff.mpr (splits_propertyToken h), hname, if_false, Value.decode,
    String.ofList_toList, htag]

/-- The properties that were written are read. -/
theorem propertiesText_written {properties : Properties} (h : ∀ p ∈ properties.entries, PlainProperty p)
    (hf : ∀ p ∈ properties.entries, p.2.Finite) :
    PropertiesText (properties.entries.map propertyToken) properties := by
  refine ⟨properties.entries.map fun p => (p.1, some p.2), ?_, ?_, ?_⟩
  · rw [List.forall₂_map_left_iff, List.forall₂_map_right_iff, List.forall₂_same]
    intro p hp
    rw [← parseProperty_eq_ok_iff, parseProperty_propertyToken (h p hp), Value.decodeAs_encode (hf p hp)]
    rfl
  · rw [List.map_map]
    exact properties.nodup_keys
  · intro name v
    rw [SortedMap.get?_eq_some_iff]
    simp

/-- The first value that is not finite is refused. -/
theorem parseProperties_not_finite {seen : List String} {acc : Properties} {entries : List (String × Value)}
    (h : ∀ p ∈ entries, PlainProperty p) (hnodup : (entries.map (·.1)).Nodup) (hseen : ∀ p ∈ entries, p.1 ∉ seen)
    (hf : ¬ ∀ p ∈ entries, p.2.Finite) :
    ∃ p ∈ entries, ¬ p.2.Finite ∧
      parseProperties seen acc (entries.map propertyToken) =
        .error (.invalidNumber (.ofList p.2.encode.1) .invalidDigit) := by
  induction entries generalizing seen acc with
  | nil => exact absurd (by simp) hf
  | cons p entries ih =>
    have hp := parseProperty_propertyToken (h p List.mem_cons_self)
    rw [List.map_cons, parseProperties, hp]
    by_cases hfinite : p.2.Finite
    · rw [Value.decodeAs_encode hfinite]
      rw [List.map_cons, List.nodup_cons] at hnodup
      have hnew : ∀ q ∈ entries, q.1 ∉ p.1 :: seen := by
        intro q hq
        rw [List.mem_cons, not_or]
        exact ⟨fun he => hnodup.1 (List.mem_map.mpr ⟨q, hq, he⟩), hseen q (List.mem_cons_of_mem _ hq)⟩
      have hrest : ¬ ∀ q ∈ entries, q.2.Finite := fun hall => hf (List.forall_mem_cons.mpr ⟨hfinite, hall⟩)
      obtain ⟨q, hq, hqf, herror⟩ := @ih (p.1 :: seen) (acc.insert p.1 p.2)
        (fun q hq => h q (List.mem_cons_of_mem _ hq)) hnodup.2 hnew hrest
      refine ⟨q, List.mem_cons_of_mem _ hq, hqf, ?_⟩
      have hfirst : seen.contains p.1 = false := by
        rw [List.contains_eq_mem, decide_eq_false_iff_not]
        exact hseen p List.mem_cons_self
      simp only [Except.map, hfirst]
      exact herror
    · rw [Value.decodeAs_encode_not_finite hfinite]
      exact ⟨p, List.mem_cons_self, hfinite, rfl⟩

/-! ## operations -/

def properties (op : Operation) : Properties :=
  match op.change with
  | .row _ e => e.properties
  | .updateAll p => p.properties
  | .deleteAll => .empty

/-- What can stand in a line: fields that are not empty and hold no separator, and deletions as they are read. -/
structure Plain (op : Operation) : Prop where
  table : IsWord op.table
  keys : ∀ {kind e}, op.change = .row kind e → IsWord e.key.partition ∧ IsWord e.key.row
  properties : ∀ p ∈ op.properties.entries, PlainProperty p
  deletion : ∀ {e}, op.change = .row .delete e → e.properties = .empty ∧ e.key.partition ≠ "*" ∧ e.key.row ≠ "*"

def Finite (op : Operation) : Prop := ∀ p ∈ op.properties.entries, p.2.Finite

instance (op : Operation) : Decidable op.Finite :=
  inferInstanceAs (Decidable (∀ p ∈ op.properties.entries, p.2.Finite))

/-! ### writing -/

theorem opcode_word (mode : Mode) : IsWord mode.opcode := by
  cases mode with
  | row kind => cases kind <;> exact ⟨by decide, by decide⟩
  | updateAll | deleteAll => exact ⟨by decide, by decide⟩

theorem fields_row {kind : ActionKind} (hk : kind ≠ .delete) (table : String) (e : Entity) :
    (⟨table, .row kind e⟩ : Operation).fields = (Mode.row kind).opcode.toList :: table.toList ::
      e.key.partition.toList :: e.key.row.toList :: e.properties.entries.map propertyToken := by
  cases kind with
  | delete => exact absurd rfl hk
  | add | updateMerge | updateReplace | upsertMerge | upsertReplace => rfl

theorem fields_words {op : Operation} (h : op.Plain) : ∀ field ∈ op.fields, field ≠ [] ∧ ' ' ∉ field := by
  have hword : ∀ {s : String}, IsWord s → s.toList ≠ [] ∧ ' ' ∉ s.toList := fun hs => ⟨toList_ne_nil.mpr hs.1, hs.2⟩
  have htokens : ∀ field ∈ op.properties.entries.map propertyToken, field ≠ [] ∧ ' ' ∉ field := by
    intro field hfield
    obtain ⟨p, hp, rfl⟩ := List.mem_map.mp hfield
    exact propertyToken_word (h.properties p hp)
  have hopcode := hword (opcode_word op.mode)
  have htable := hword h.table
  rcases op with ⟨table, ⟨kind, e⟩ | patch | _⟩
  · obtain ⟨hp, hr⟩ := h.keys rfl
    by_cases hk : kind = .delete
    · subst hk
      show ∀ field ∈ [_, table.toList, e.key.partition.toList, e.key.row.toList], _
      simp only [List.forall_mem_cons]
      exact ⟨hopcode, htable, hword hp, hword hr, by simp⟩
    · rw [fields_row hk]
      simp only [List.forall_mem_cons]
      exact ⟨hopcode, htable, hword hp, hword hr, htokens⟩
  · show ∀ field ∈ _ :: table.toList :: patch.properties.entries.map propertyToken, _
    simp only [List.forall_mem_cons]
    exact ⟨hopcode, htable, htokens⟩
  · show ∀ field ∈ [_, table.toList, ['*']], _
    simp only [List.forall_mem_cons]
    exact ⟨hopcode, htable, ⟨by decide, by decide⟩, by simp⟩

theorem Plain.splits {op : Operation} (h : op.Plain) : Splits ' ' op.render.toList op.fields :=
  ⟨List.cons_ne_nil _ _, fun field hfield => (fields_words h field hfield).2, String.toList_ofList⟩

/-- The fields of a plain operation whose doubles are finite make the operation. -/
theorem phrase_fields {op : Operation} (h : op.Plain) (hf : op.Finite) : Phrase op.fields op := by
  have htext := propertiesText_written h.properties hf
  rcases op with ⟨table, ⟨kind, e⟩ | patch | _⟩
  · by_cases hk : kind = .delete
    · subst hk
      obtain ⟨⟨pk, rk⟩, properties⟩ := e
      obtain ⟨hempty, hp, hr⟩ := h.deletion rfl
      cases hempty
      exact .delete hp hr
    · rw [fields_row hk]
      exact .row hk htext
  · exact .updateAll htext
  · exact .deleteAll List.mem_cons_self

/-- A plain operation whose doubles are finite is read back from its line. -/
theorem parse_render {op : Operation} (h : op.Plain) (hf : op.Finite) : parse op.render = .ok op :=
  parse_of_isLine ⟨op.fields, h.splits, fun field hfield => (fields_words h field hfield).1, phrase_fields h hf⟩

theorem parse_render_eq {op : Operation} (h : op.Plain) :
    parse op.render = (parseChange op.render op.mode.opcode (op.fields.drop 2)).map (⟨op.table, ·⟩) := by
  have hfields : op.fields = op.mode.opcode.toList :: op.table.toList :: op.fields.drop 2 := rfl
  have hany := not_any_isEmpty fun field hfield => (fields_words h field hfield).1
  have hsplits := h.splits
  rw [hfields] at hany hsplits
  simp only [parse, splitOn_eq_iff.mpr hsplits, hany, String.ofList_toList]
  rfl

/-- Of a plain operation with another double the line is refused, for the word that stands in the double's place. -/
theorem parse_render_not_finite {op : Operation} (h : op.Plain) (hf : ¬ op.Finite) :
    ∃ p ∈ op.properties.entries, ¬ p.2.Finite ∧
      parse op.render = .error (.invalidNumber (.ofList p.2.encode.1) .invalidDigit) := by
  have hrefused : ∃ p ∈ op.properties.entries, ¬ p.2.Finite ∧
      parseProperties [] .empty (op.properties.entries.map propertyToken) =
        .error (.invalidNumber (.ofList p.2.encode.1) .invalidDigit) :=
    parseProperties_not_finite h.properties op.properties.nodup_keys (by simp) hf
  obtain ⟨p, hp, hpf, herror⟩ := hrefused
  refine ⟨p, hp, hpf, ?_⟩
  rw [parse_render_eq h]
  rcases op with ⟨table, ⟨kind, e⟩ | patch | _⟩
  · have hrow : parseRow (render ⟨table, .row kind e⟩) (e.key.partition.toList :: e.key.row.toList ::
        e.properties.entries.map propertyToken) = .error (.invalidNumber (.ofList p.2.encode.1) .invalidDigit) :=
      map_eq_error_iff.mpr herror
    cases kind with
    | delete =>
      have hempty : e.properties = .empty := (h.deletion rfl).1
      have hp : p ∈ e.properties.entries := hp
      rw [hempty] at hp
      cases hp
    | add | updateMerge | updateReplace | upsertMerge | upsertReplace => exact map_eq_error_iff.mpr (map_eq_error_iff.mpr hrow)
  · exact map_eq_error_iff.mpr (map_eq_error_iff.mpr herror)
  · cases hp

/-! ### reading -/

theorem mem_intercalate {separator c : Char} {parts : List (List Char)} {part : List Char} (h : part ∈ parts)
    (hc : c ∈ part) : c ∈ [separator].intercalate parts := by
  induction parts with
  | nil => cases h
  | cons first rest ih =>
    cases rest with
    | nil =>
      rw [List.mem_singleton] at h
      rwa [List.intercalate_singleton, ← h]
    | cons second rest =>
      rw [List.intercalate_cons_cons, List.mem_append]
      rcases List.mem_cons.mp h with rfl | h
      · exact Or.inl (List.mem_append_left _ hc)
      · exact Or.inr (ih h)

theorem plainProperty_of_text {token : List Char} {name : String} {v : Value} (h : PropertyText token (name, some v))
    (hspace : ' ' ∉ token) : PlainProperty (name, v) := by
  obtain ⟨raw, tag, hsplits, hname, hvalue⟩ := h
  have hparts : ∀ part ∈ [name.toList, raw, tag.text.toList], Unseparated part := by
    intro part hpart
    refine ⟨fun hs => hspace ?_, hsplits.2.1 part hpart⟩
    rw [hsplits.2.2]
    exact mem_intercalate hpart hs
  refine ⟨hname, hparts _ List.mem_cons_self, ?_⟩
  cases hvalue with
  | string =>
    show Unseparated (String.ofList raw).toList
    rw [String.toList_ofList]
    exact hparts raw (List.mem_cons_of_mem _ List.mem_cons_self)
  | bool | integer | double => trivial

theorem text_of_property {line : String} {op : Operation} (h : parse line = .ok op) {p : String × Value}
    (hp : p ∈ op.properties.entries) : ∃ token, ' ' ∉ token ∧ PropertyText token (p.1, some p.2) := by
  obtain ⟨fields, hsplits, -, hphrase⟩ := isLine_of_parse h
  have hread : ∀ {tokens : List (List Char)} {properties : Properties}, (∀ token ∈ tokens, token ∈ fields) →
      PropertiesText tokens properties → p ∈ properties.entries →
      ∃ token, ' ' ∉ token ∧ PropertyText token (p.1, some p.2) := by
    intro tokens properties htokens htext hp
    obtain ⟨read, hread, -, hget⟩ := htext
    obtain ⟨token, htoken, hproperty⟩ :=
      exists_of_mem_right hread ((hget p.1 p.2).mp (SortedMap.get?_eq_some_iff.mpr hp))
    exact ⟨token, hsplits.2.1 token (htokens token htoken), hproperty⟩
  cases hphrase with
  | row hk htext => exact hread (fun token ht => by simp [ht]) htext hp
  | updateAll htext => exact hread (fun token ht => by simp [ht]) htext hp
  | deleteAll | delete => cases hp

/-- Every operation that is read can stand in a line. -/
theorem plain_of_parse {line : String} {op : Operation} (h : parse line = .ok op) : op.Plain := by
  have hproperties : ∀ p ∈ op.properties.entries, PlainProperty p := by
    intro p hp
    obtain ⟨token, hspace, htext⟩ := text_of_property h hp
    exact plainProperty_of_text htext hspace
  obtain ⟨fields, hsplits, hne, hphrase⟩ := isLine_of_parse h
  have hword : ∀ {s : String}, s.toList ∈ fields → IsWord s := fun hs =>
    ⟨toList_ne_nil.mp (hne _ hs), hsplits.2.1 _ hs⟩
  cases hphrase with
  | row hk =>
    refine ⟨hword (by simp), ?_, hproperties, ?_⟩
    · intro kind e he
      cases he
      exact ⟨hword (by simp), hword (by simp)⟩
    · intro e he
      cases he
      exact absurd rfl hk
  | updateAll | deleteAll => exact ⟨hword (by simp), nofun, hproperties, nofun⟩
  | delete hp hr =>
    refine ⟨hword (by simp), ?_, hproperties, ?_⟩
    · intro kind e he
      cases he
      exact ⟨hword (by simp [Entity.bare]), hword (by simp [Entity.bare])⟩
    · intro e he
      cases he
      exact ⟨rfl, hp, hr⟩

/-- A double that is read is finite or too large to be: no text is read as not-a-number. -/
theorem infinite_of_parse {line : String} {op : Operation} (h : parse line = .ok op) {p : String × Value}
    (hp : p ∈ op.properties.entries) (hf : ¬ p.2.Finite) : ∃ negative, p.2 = .double (.infinite negative) := by
  obtain ⟨token, -, raw, tag, -, -, hvalue⟩ := text_of_property h hp
  cases p with
  | mk name v =>
    cases v with
    | string | int64 | bool => exact absurd trivial hf
    | double x =>
      cases hvalue with
      | double _ htext =>
        obtain ⟨negative, -, -, -, -, -, -, -, -, -, -, -, code, -, hx⟩ := htext
        rw [Double.ofCode] at hx
        split at hx
        · exact absurd (congrArg Double.isFinite hx) hf
        · exact ⟨negative, congrArg Value.double hx⟩

/-! ## agreement -/

theorem agrees_iff {a b : Properties} :
    a.agrees b = true ↔ List.Forall₂ (fun p q => p.1 = q.1 ∧ p.2.agrees q.2 = true) a.entries b.entries := by
  simp only [Properties.agrees, SortedMap.keys, SortedMap.values, Bool.and_eq_true, beq_iff_eq]
  generalize a.entries = l
  generalize b.entries = r
  induction l generalizing r with
  | nil => cases r <;> simp
  | cons p l ih =>
    cases r with
    | nil => simp
    | cons q r =>
      simp only [List.map_cons, List.cons.injEq, List.zip_cons_cons, List.all_cons, Bool.and_eq_true,
        List.forall₂_cons]
      rw [← ih r]
      exact and_and_and_comm

theorem agrees_self {op : Operation} (hf : op.Finite) : op.agrees op = true := by
  have hproperties : op.properties.agrees op.properties = true :=
    agrees_iff.mpr (List.forall₂_same.mpr fun p hp => ⟨rfl, Value.agrees_self (hf p hp)⟩)
  rcases op with ⟨table, ⟨kind, e⟩ | patch | _⟩ <;> simp_all [agrees, Entity.agrees, properties]

theorem plainProperty_of_agrees {a b : Properties} (ha : ∀ p ∈ a.entries, PlainProperty p) (h : a.agrees b = true) :
    ∀ q ∈ b.entries, PlainProperty q := by
  intro q hq
  obtain ⟨p, hp, hname, hvalue⟩ := exists_of_mem_right (agrees_iff.mp h) hq
  obtain ⟨hne, hsep, hplain⟩ := ha p hp
  rw [hname] at hne hsep
  exact ⟨hne, hsep, hplain.of_agrees hvalue⟩

theorem Plain.of_agrees {a b : Operation} (ha : a.Plain) (h : a.agrees b = true) : b.Plain := by
  obtain ⟨table, change⟩ := a
  obtain ⟨table', change'⟩ := b
  rw [agrees, Bool.and_eq_true, beq_iff_eq] at h
  obtain ⟨rfl, h⟩ := h
  cases change with
  | row kind e =>
    cases change' with
    | row kind' e' =>
      simp only [Entity.agrees, Bool.and_eq_true, beq_iff_eq] at h
      obtain ⟨rfl, hkey, hproperties⟩ := h
      refine ⟨ha.table, ?_, plainProperty_of_agrees ha.properties hproperties, ?_⟩
      · intro k f hf
        cases hf
        rw [← hkey]
        exact ha.keys rfl
      · intro f hf
        cases hf
        obtain ⟨hempty, hp, hr⟩ := ha.deletion rfl
        rw [← hkey]
        refine ⟨?_, hp, hr⟩
        rw [agrees_iff, hempty] at hproperties
        exact SortedMap.ext_entries (List.forall₂_nil_left_iff.mp hproperties)
    | updateAll | deleteAll => cases h
  | updateAll patch =>
    cases change' with
    | updateAll patch' => exact ⟨ha.table, nofun, plainProperty_of_agrees ha.properties h, nofun⟩
    | row | deleteAll => cases h
  | deleteAll =>
    cases change' with
    | deleteAll => exact ha
    | row | updateAll => cases h

/-! ## the round trip -/

/-- Exactly the plain operations whose doubles are finite are read back from their lines: as themselves, and so also as
    an operation that agrees. -/
theorem parse_render_iff (op : Operation) :
    (parse op.render = .ok op ↔ op.Plain ∧ op.Finite) ∧
      ((∃ read, parse op.render = .ok read ∧ read.agrees op = true) ↔ op.Plain ∧ op.Finite) := by
  have finite_of_read : ∀ {read}, op.Plain → parse op.render = .ok read → op.Finite := by
    intro read hplain hread
    by_contra hf
    obtain ⟨p, -, -, herror⟩ := parse_render_not_finite hplain hf
    rw [herror] at hread
    cases hread
  refine ⟨⟨?_, fun h => parse_render h.1 h.2⟩, ?_, fun h => ⟨op, parse_render h.1 h.2, agrees_self h.2⟩⟩
  · intro h
    have hplain := plain_of_parse h
    exact ⟨hplain, finite_of_read hplain h⟩
  · intro h
    obtain ⟨read, hread, hagrees⟩ := h
    have hplain := (plain_of_parse hread).of_agrees hagrees
    exact ⟨hplain, finite_of_read hplain hread⟩

/-- A line that was accepted is accepted again as it is written back, unless a number on it was too large for a double:
    then the infinity that it was read as is written as a word, and the line with the word is refused. For every value
    but the infinities and not-a-number, reading undoes writing. -/
theorem parse_render_of_parse {line : String} {op : Operation} (h : parse line = .ok op) :
    (op.Finite → parse op.render = .ok op) ∧
      (¬ op.Finite → ∃ name negative, op.properties.get? name = some (.double (.infinite negative)) ∧
        parse op.render = .error (.invalidNumber (if negative then "-inf" else "inf") .invalidDigit)) ∧
      ∀ v : Value, Value.decode v.encode.1 v.encode.2.text = .ok (some v) ↔ v.Finite := by
  have hplain := plain_of_parse h
  refine ⟨parse_render hplain, ?_, Value.decode_encode_iff⟩
  intro hf
  obtain ⟨⟨name, v⟩, hp, hpf, herror⟩ := parse_render_not_finite hplain hf
  obtain ⟨negative, hv⟩ := infinite_of_parse h hp hpf
  have hv : v = .double (.infinite negative) := hv
  subst hv
  refine ⟨name, negative, SortedMap.get?_eq_some_iff.mpr hp, ?_⟩
  rw [herror]
  cases negative <;> rfl

def overflowed : Operation := ⟨"t", .row .add ⟨⟨"p", "r"⟩, .ofList [("a", .double (.infinite false))]⟩⟩

/-- A number that is too large for a double is accepted, and what is written back of it is not. -/
theorem overflowed_refused :
    parse "INSERT t p r a|1.0e400|NUMBER" = .ok overflowed ∧ overflowed.render = "INSERT t p r a|inf|NUMBER" ∧
      parse overflowed.render ≠ .ok overflowed := by
  have hrefused : parse overflowed.render = .error (.invalidNumber "inf" .invalidDigit) := by rfl
  refine ⟨by rfl, by rfl, ?_⟩
  rw [hrefused]
  nofun

def sampleUpsert : Operation :=
  ⟨"t", .row .upsertReplace ⟨⟨"*", "r"⟩,
    .ofList [("b", .bool true), ("n", .int64 (-7)), ("s", .string ""), ("x", .double (.ofRatio true 0 1))]⟩⟩

/-- Numbers and truth values that are written otherwise come back in one form, nulls not at all. -/
theorem sampleUpsert_normalized :
    parse "UPSERTR t * r x|-.0e5|NUMBER n|-007|NUMBER b|TRUE|BOOL z||NULL s||STRING" = .ok sampleUpsert ∧
      parse "UPSERTR t * r b|true|BOOL n|-7|NUMBER s||STRING x|-0.0|NUMBER" = .ok sampleUpsert := by
  have hread : parse "UPSERTR t * r x|-.0e5|NUMBER n|-007|NUMBER b|TRUE|BOOL z||NULL s||STRING" = .ok sampleUpsert := by
    decide +kernel
  have hrender : sampleUpsert.render = "UPSERTR t * r b|true|BOOL n|-7|NUMBER s||STRING x|-0.0|NUMBER" := by
    decide +kernel
  have hfinite : sampleUpsert.Finite := by decide +kernel
  rw [← hrender]
  exact ⟨hread, (parse_render_of_parse hread).1 hfinite⟩

end Operation

end TableMigrations
