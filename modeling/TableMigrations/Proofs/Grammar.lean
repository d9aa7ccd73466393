/-
  TableMigrations.Proofs.Grammar — the texts that are migration lines, and the operation of each.

  The grammar is a relation between texts and what they mean, told from the outside: a text is cut at every separator
  (`Splits`), a value's text is judged by its tag (`ValueText`), the names of a line are all different
  (`PropertiesText`), and the fields of a line make an operation (`Phrase`). `parse` accepts a line with an operation
  exactly when the line is one of that operation (`parse_eq_ok_iff`).
-/
import TableMigrations.Operation.Notation
import TableMigrations.Proofs.NumberText
import TableMigrations.Proofs.SortedMap

namespace TableMigrations

theorem map_eq_ok_iff {ε α β : Type} {f : α → β} {x : Except ε α} {b : β} :
    x.map f = .ok b ↔ ∃ a, x = .ok a ∧ f a = b := by
  cases x <;> simp [Except.map]

theorem map_eq_error_iff {ε α β : Type} {f : α → β} {x : Except ε α} {e : ε} : x.map f = .error e ↔ x = .error e := by
  cases x <;> simp [Except.map]

theorem exists_of_mem_right {α β : Type} {R : α → β → Prop} {l : List α} {r : List β} (h : List.Forall₂ R l r) {b : β}
    (hb : b ∈ r) : ∃ a ∈ l, R a b := by
  induction h with
  | nil => cases hb
  | cons hab _ ih =>
    rcases List.mem_cons.mp hb with rfl | hb
    · exact ⟨_, List.mem_cons_self, hab⟩
    · obtain ⟨a, ha, hR⟩ := ih hb
      exact ⟨a, List.mem_cons_of_mem _ ha, hR⟩

/-! ## separators -/

def Splits (separator : Char) (text : List Char) (parts : List (List Char)) : Prop :=
  parts ≠ [] ∧ (∀ part ∈ parts, separator ∉ part) ∧ text = [separator].intercalate parts

theorem not_mem_of_mem_splitOn {separator : Char} {text part : List Char} (h : part ∈ text.splitOn separator) :
    separator ∉ part := by
  induction text generalizing part with
  | nil =>
    rw [List.splitOn_nil, List.mem_singleton] at h
    rw [h]
    exact List.not_mem_nil
  | cons c r ih =>
    obtain ⟨first, rest, hr⟩ := List.exists_cons_of_ne_nil (List.splitOn_ne_nil separator r)
    rw [List.splitOn_cons_eq_if_modifyHead, hr] at h
    rw [hr] at ih
    split at h
    · rcases List.mem_cons.mp h with rfl | h
      · exact List.not_mem_nil
      · exact ih h
    · rename_i hc
      rcases List.mem_cons.mp h with rfl | h
      · rw [List.mem_cons, not_or]
        exact ⟨fun he => hc (beq_iff_eq.mpr he.symm), ih List.mem_cons_self⟩
      · exact ih (List.mem_cons_of_mem _ h)

theorem splitOn_eq_iff {separator : Char} {text : List Char} {parts : List (List Char)} :
    text.splitOn separator = parts ↔ Splits separator text parts := by
  constructor
  · rintro rfl
    exact ⟨List.splitOn_ne_nil _ _, fun _ => not_mem_of_mem_splitOn, (List.intercalate_splitOn separator).symm⟩
  · intro h
    obtain ⟨hne, hparts, rfl⟩ := h
    exact List.splitOn_intercalate separator hparts hne

/-! ## values -/

def IsTrueWord (raw : List Char) : Prop :=
  List.Forall₂ (fun c letter => c = letter ∨ c = letter.toUpper) raw ['t', 'r', 'u', 'e']

/-- What a value's text means under a tag; under null it has no value. -/
inductive ValueText (raw : List Char) : Tag → Option Value → Prop
  | string : ValueText raw .string (some (.string (.ofList raw)))
  | bool {b : Bool} (h : b = true ↔ IsTrueWord raw) : ValueText raw .bool (some (.bool b))
  | integer {n : Int64} (hp : '.' ∉ raw) (h : IntegerText raw n) : ValueText raw .number (some (.int64 n))
  | double {x : Double} (hp : '.' ∈ raw) (h : DoubleText raw x) : ValueText raw .number (some (.double x))
  | null : ValueText raw .null none

theorem toLower_eq_iff {c letter : Char} (h : letter.isLower = true) :
    c.toLower = letter ↔ c = letter ∨ c = letter.toUpper := by
  constructor
  · intro hc
    by_cases hu : c.isUpper = true
    · right
      rw [← hc, Char.toUpper_toLower_eq_toUpper, Char.toUpper_eq_of_not_isLower]
      exact fun hl => Char.not_isLower_of_isUpper hu hl
    · left
      rw [← hc, Char.toLower_eq_of_not_isUpper hu]
  · have hletter : letter.toLower = letter := Char.toLower_eq_of_not_isUpper (Char.not_isUpper_of_isLower h)
    intro h
    rcases h with rfl | rfl
    · exact hletter
    · rw [Char.toLower_toUpper_eq_toLower, hletter]

theorem map_toLower_eq_iff {raw word : List Char} (h : ∀ letter ∈ word, letter.isLower = true) :
    raw.map Char.toLower = word ↔ List.Forall₂ (fun c letter => c = letter ∨ c = letter.toUpper) raw word := by
  induction word generalizing raw with
  | nil => simp
  | cons letter word ih =>
    cases raw with
    | nil => simp
    | cons c raw =>
      rw [List.map_cons, List.cons.injEq, List.forall₂_cons, toLower_eq_iff (h letter List.mem_cons_self),
        ih fun l hl => h l (List.mem_cons_of_mem _ hl)]

theorem decodeAs_eq_ok_iff {raw : List Char} {tag : Tag} {value : Option Value} :
    Value.decodeAs raw tag = .ok value ↔ ValueText raw tag value := by
  cases tag with
  | string =>
    rw [Value.decodeAs, Except.ok.injEq]
    constructor
    · intro h
      subst h
      exact .string
    · intro h
      cases h
      rfl
  | null =>
    rw [Value.decodeAs, Except.ok.injEq]
    constructor
    · intro h
      subst h
      exact .null
    · intro h
      cases h
      rfl
  | bool =>
    have hlower : ∀ letter ∈ ['t', 'r', 'u', 'e'], letter.isLower = true := by simp
    have hword : (raw.map Char.toLower == ['t', 'r', 'u', 'e']) = true ↔ IsTrueWord raw :=
      beq_iff_eq.trans (map_toLower_eq_iff hlower)
    rw [Value.decodeAs, Except.ok.injEq]
    constructor
    · intro h
      subst h
      exact .bool hword
    · intro h
      cases h with
      | bool hb => rw [Bool.eq_iff_iff.mpr (hword.trans hb.symm)]
  | number =>
    have hnumber : Value.decodeAs raw .number = .ok value ↔ ∃ v, Value.decodeNumber raw = .ok v ∧ value = some v := by
      rw [Value.decodeAs]
      cases Value.decodeNumber raw <;> simp [eq_comm]
    rw [hnumber, Value.decodeNumber]
    by_cases hp : '.' ∈ raw
    · rw [if_pos (List.contains_iff_mem.mpr hp)]
      constructor
      · intro h
        obtain ⟨v, hv, rfl⟩ := h
        obtain ⟨x, hx, rfl⟩ := map_eq_ok_iff.mp hv
        exact .double hp ((readDouble_eq_ok_iff hp x).mp hx)
      · intro h
        cases h with
        | integer hno => exact absurd hp hno
        | double _ h => exact ⟨_, map_eq_ok_iff.mpr ⟨_, (readDouble_eq_ok_iff hp _).mpr h, rfl⟩, rfl⟩
    · rw [if_neg fun h => hp (List.contains_iff_mem.mp h)]
      constructor
      · intro h
        obtain ⟨v, hv, rfl⟩ := h
        obtain ⟨n, hn, rfl⟩ := map_eq_ok_iff.mp hv
        exact .integer hp ((readInteger_eq_ok_iff raw n).mp hn)
      · intro h
        cases h with
        | integer _ h => exact ⟨_, map_eq_ok_iff.mpr ⟨_, (readInteger_eq_ok_iff raw _).mpr h, rfl⟩, rfl⟩
        | double hno => exact absurd hno hp

theorem ofText?_eq_some_iff {text : String} {tag : Tag} : Tag.ofText? text = some tag ↔ tag.text = text := by
  constructor
  · intro h
    have htag : (tag.text == text) = true := List.find?_some (p := fun t : Tag => t.text == text) h
    exact eq_of_beq htag
  · rintro rfl
    cases tag <;> rfl

theorem decode_eq_ok_iff {raw : List Char} {text : String} {value : Option Value} :
    Value.decode raw text = .ok value ↔ ∃ tag : Tag, tag.text = text ∧ ValueText raw tag value := by
  rw [Value.decode]
  constructor
  · intro h
    split at h
    · rename_i tag htag
      exact ⟨tag, ofText?_eq_some_iff.mp htag, decodeAs_eq_ok_iff.mp h⟩
    · cases h
  · intro h
    obtain ⟨tag, htag, h⟩ := h
    rw [ofText?_eq_some_iff.mpr htag]
    exact decodeAs_eq_ok_iff.mpr h

/-! ## properties -/

def PropertyText (token : List Char) (property : String × Option Value) : Prop :=
  ∃ raw, ∃ tag : Tag, Splits '|' token [property.1.toList, raw, tag.text.toList] ∧ property.1 ≠ "" ∧
    ValueText raw tag property.2

/-- Properties under different names, whose values, where they have one, are in the map and nothing else is. -/
def PropertiesText (tokens : List (List Char)) (properties : Properties) : Prop :=
  ∃ read : List (String × Option Value), List.Forall₂ PropertyText tokens read ∧ (read.map (·.1)).Nodup ∧
    ∀ name v, properties.get? name = some v ↔ (name, some v) ∈ read

namespace Operation

theorem parseProperty_eq_ok_iff {token : List Char} {property : String × Option Value} :
    parseProperty token = .ok property ↔ PropertyText token property := by
  obtain ⟨name, value⟩ := property
  constructor
  · intro h
    rw [parseProperty] at h
    split at h
    · rename_i nameText raw tagText hparts
      have hsplits := splitOn_eq_iff.mp hparts
      split at h
      · cases h
      · rename_i hname
        obtain ⟨value, hd, hproperty⟩ := map_eq_ok_iff.mp h
        cases hproperty
        obtain ⟨tag, htag, hvalue⟩ := decode_eq_ok_iff.mp hd
        refine ⟨raw, tag, ?_, fun hempty => hname (String.ofList_eq_empty_iff.mp hempty), hvalue⟩
        rw [htag, String.toList_ofList, String.toList_ofList]
        exact hsplits
    · cases h
  · intro h
    obtain ⟨raw, tag, hsplits, hname, hvalue⟩ := h
    have hne : name.toList ≠ [] := fun hnil => hname (String.toList_eq_nil_iff.mp hnil)
    have hd : Value.decode raw tag.text = .ok value := decode_eq_ok_iff.mpr ⟨tag, rfl, hvalue⟩
    simp only [parseProperty, splitOn_eq_iff.mpr hsplits, hne, if_false, String.ofList_toList, hd]
    rfl

/-- Files the properties that were read in a map, those without a value left out. -/
def gather (acc : Properties) (read : List (String × Option Value)) : Properties :=
  read.foldl (fun acc p => p.2.elim acc (acc.insert p.1)) acc

theorem parseProperties_eq_ok_iff {seen : List String} {acc properties : Properties} {tokens : List (List Char)} :
    parseProperties seen acc tokens = .ok properties ↔
      ∃ read, List.Forall₂ PropertyText tokens read ∧ (read.map (·.1)).Nodup ∧ (∀ p ∈ read, p.1 ∉ seen) ∧
        properties = gather acc read := by
  induction tokens generalizing seen acc with
  | nil =>
    rw [parseProperties, Except.ok.injEq]
    constructor
    · rintro rfl
      exact ⟨[], .nil, .nil, by simp, rfl⟩
    · intro h
      obtain ⟨read, hread, -, -, rfl⟩ := h
      cases hread
      rfl
  | cons token tokens ih =>
    rw [parseProperties]
    rcases hp : parseProperty token with e | ⟨name, value⟩
    · refine iff_of_false (fun h => by cases h) ?_
      intro h
      obtain ⟨read, hread, -⟩ := h
      cases hread with
      | cons h _ =>
        rw [parseProperty_eq_ok_iff.mpr h] at hp
        cases hp
    · by_cases hseen : name ∈ seen
      · simp only [List.contains_iff_mem, hseen, if_true]
        refine iff_of_false (fun h => by cases h) ?_
        intro h
        obtain ⟨read, hread, -, hnew, -⟩ := h
        cases hread with
        | cons h _ =>
          rw [parseProperty_eq_ok_iff.mpr h] at hp
          cases hp
          exact hnew _ List.mem_cons_self hseen
      · simp only [List.contains_iff_mem, hseen, if_false]
        rw [ih]
        constructor
        · intro h
          obtain ⟨read, hread, hnodup, hnew, rfl⟩ := h
          refine ⟨(name, value) :: read, .cons (parseProperty_eq_ok_iff.mp hp) hread, ?_, ?_, rfl⟩
          · refine List.nodup_cons.mpr ⟨fun hm => ?_, hnodup⟩
            obtain ⟨p, hpm, hpn⟩ := List.mem_map.mp hm
            exact hnew p hpm (hpn ▸ List.mem_cons_self)
          · intro p hm
            rcases List.mem_cons.mp hm with rfl | hm
            · exact hseen
            · exact fun hs => hnew p hm (List.mem_cons_of_mem _ hs)
        · intro h
          obtain ⟨read, hread, hnodup, hnew, rfl⟩ := h
          cases hread with
          | @cons _ p _ read h hread =>
            rw [parseProperty_eq_ok_iff.mpr h] at hp
            cases hp
            obtain ⟨hfirst, hnodup⟩ := List.nodup_cons.mp hnodup
            refine ⟨read, hread, hnodup, fun q hq => ?_, rfl⟩
            rw [List.mem_cons, not_or]
            exact ⟨fun he => hfirst (List.mem_map.mpr ⟨q, hq, he⟩), hnew q (List.mem_cons_of_mem _ hq)⟩

/-- Properties under different names are gathered as they were read. -/
theorem get?_gather {acc : Properties} {read : List (String × Option Value)} (hnodup : (read.map (·.1)).Nodup)
    (hacc : ∀ p ∈ read, acc.get? p.1 = none) (name : String) (v : Value) :
    (gather acc read).get? name = some v ↔ (name, some v) ∈ read ∨ acc.get? name = some v := by
  induction read generalizing acc with
  | nil => simp [gather]
  | cons p read ih =>
    obtain ⟨n, value⟩ := p
    rw [List.map_cons, List.nodup_cons] at hnodup
    obtain ⟨hfirst, hnodup⟩ := hnodup
    have hn : acc.get? n = none := hacc (n, value) List.mem_cons_self
    have hrest : ∀ q ∈ read, q.1 ≠ n := fun q hq he => hfirst (List.mem_map.mpr ⟨q, hq, he⟩)
    cases value with
    | none =>
      show (gather acc read).get? name = some v ↔ _
      rw [ih hnodup fun q hq => hacc q (List.mem_cons_of_mem _ hq)]
      simp
    | some w =>
      show (gather (acc.insert n w) read).get? name = some v ↔ _
      have hnext : ∀ q ∈ read, (acc.insert n w).get? q.1 = none := by
        intro q hq
        rw [SortedMap.get?_insert_ne _ _ (hrest q hq)]
        exact hacc q (List.mem_cons_of_mem _ hq)
      rw [ih hnodup hnext, SortedMap.get?_insert]
      by_cases hname : name = n
      · subst hname
        simp [hn, eq_comm (a := v), or_comm]
      · simp [hname]

theorem parseProperties_empty_eq_ok_iff {properties : Properties} {tokens : List (List Char)} :
    parseProperties [] .empty tokens = .ok properties ↔ PropertiesText tokens properties := by
  have hget : ∀ {read : List (String × Option Value)}, (read.map (·.1)).Nodup → ∀ name v,
      (gather .empty read).get? name = some v ↔ (name, some v) ∈ read ∨ none = some v :=
    fun hnodup => get?_gather hnodup fun p _ => SortedMap.get?_empty p.1
  rw [parseProperties_eq_ok_iff]
  constructor
  · intro h
    obtain ⟨read, hread, hnodup, -, rfl⟩ := h
    refine ⟨read, hread, hnodup, fun name v => ?_⟩
    rw [hget hnodup]
    simp
  · intro h
    obtain ⟨read, hread, hnodup, hproperties⟩ := h
    refine ⟨read, hread, hnodup, by simp, SortedMap.ext_get? fun name => Option.ext fun v => ?_⟩
    refine (hproperties name v).trans ?_
    refine Iff.trans ?_ (hget hnodup name v).symm
    simp

/-! ## lines -/

inductive Phrase : List (List Char) → Operation → Prop
  | row {kind : ActionKind} {table pk rk : String} {tokens : List (List Char)} {properties : Properties}
      (hk : kind ≠ .delete) (h : PropertiesText tokens properties) :
      Phrase ((Mode.row kind).opcode.toList :: table.toList :: pk.toList :: rk.toList :: tokens)
        ⟨table, .row kind ⟨⟨pk, rk⟩, properties⟩⟩
  | updateAll {table : String} {tokens : List (List Char)} {properties : Properties}
      (h : PropertiesText tokens properties) :
      Phrase (Mode.updateAll.opcode.toList :: table.toList :: tokens) ⟨table, .updateAll ⟨properties⟩⟩
  | deleteAll {table : String} {rest : List (List Char)} (h : ['*'] ∈ rest) :
      Phrase (Mode.deleteAll.opcode.toList :: table.toList :: rest) ⟨table, .deleteAll⟩
  | delete {table pk rk : String} (hp : pk ≠ "*") (hr : rk ≠ "*") :
      Phrase [(Mode.row .delete).opcode.toList, table.toList, pk.toList, rk.toList]
        ⟨table, .row .delete (.bare ⟨pk, rk⟩)⟩

/-- A line of an operation: single spaces cut it into fields, none of them empty, that make the operation. -/
def IsLine (line : String) (op : Operation) : Prop :=
  ∃ fields, Splits ' ' line.toList fields ∧ (∀ field ∈ fields, field ≠ []) ∧ Phrase fields op

theorem parseRow_eq_ok_iff (line : String) {rest : List (List Char)} {e : Entity} :
    parseRow line rest = .ok e ↔ ∃ tokens, rest = e.key.partition.toList :: e.key.row.toList :: tokens ∧
      PropertiesText tokens e.properties := by
  constructor
  · intro h
    unfold parseRow at h
    split at h
    · rename_i pk rk tokens
      obtain ⟨properties, hp, rfl⟩ := map_eq_ok_iff.mp h
      refine ⟨tokens, ?_, parseProperties_empty_eq_ok_iff.mp hp⟩
      rw [String.toList_ofList, String.toList_ofList]
    · cases h
  · intro h
    obtain ⟨tokens, rfl, h⟩ := h
    simp only [parseRow, parseProperties_empty_eq_ok_iff.mpr h, String.ofList_toList]
    rfl

theorem parseDeletion_eq_ok_iff (line : String) {rest : List (List Char)} {change : Change} :
    parseDeletion line rest = .ok change ↔ (['*'] ∈ rest ∧ change = .deleteAll) ∨
      ∃ pk rk : String, rest = [pk.toList, rk.toList] ∧ pk ≠ "*" ∧ rk ≠ "*" ∧
        change = .row .delete (.bare ⟨pk, rk⟩) := by
  unfold parseDeletion
  by_cases hstar : ['*'] ∈ rest
  · simp only [List.contains_iff_mem, hstar, if_true, Except.ok.injEq, true_and]
    constructor
    · intro h
      exact .inl h.symm
    · intro h
      rcases h with rfl | ⟨pk, rk, rfl, hp, hr, -⟩
      · rfl
      · rcases List.mem_cons.mp hstar with h | h
        · exact absurd (String.toList_inj.mp h.symm) hp
        · exact absurd (String.toList_inj.mp (List.mem_singleton.mp h).symm) hr
  · simp only [List.contains_iff_mem, hstar, if_false, false_and, false_or]
    constructor
    · intro h
      split at h
      · rename_i pk rk
        cases h
        refine ⟨.ofList pk, .ofList rk, by simp only [String.toList_ofList], ?_, ?_, rfl⟩
        · intro hp
          rw [← String.toList_ofList (l := pk), hp] at hstar
          exact hstar List.mem_cons_self
        · intro hr
          rw [← String.toList_ofList (l := rk), hr] at hstar
          exact hstar (List.mem_cons_of_mem _ List.mem_cons_self)
      · cases h
    · intro h
      obtain ⟨pk, rk, rfl, -, -, rfl⟩ := h
      simp only [String.ofList_toList]

/-- What the opcode makes of the fields after the table is their operation. -/
theorem phrase_of_parseChange (table : String) {line opcode : String} {rest : List (List Char)} {change : Change}
    (h : parseChange line opcode rest = .ok change) :
    Phrase (opcode.toList :: table.toList :: rest) ⟨table, change⟩ := by
  have hrow : ∀ kind : ActionKind, kind ≠ .delete → (parseRow line rest).map (.row kind) = .ok change →
      Phrase ((Mode.row kind).opcode.toList :: table.toList :: rest) ⟨table, change⟩ := by
    intro kind hk hread
    obtain ⟨e, he, rfl⟩ := map_eq_ok_iff.mp hread
    obtain ⟨tokens, rfl, hproperties⟩ := (parseRow_eq_ok_iff line).mp he
    exact .row hk hproperties
  unfold parseChange at h
  split at h
  · exact hrow .add (by decide) h
  · exact hrow .updateMerge (by decide) h
  · exact hrow .updateReplace (by decide) h
  · exact hrow .upsertMerge (by decide) h
  · exact hrow .upsertReplace (by decide) h
  · obtain ⟨properties, hp, rfl⟩ := map_eq_ok_iff.mp h
    exact .updateAll (parseProperties_empty_eq_ok_iff.mp hp)
  · rcases (parseDeletion_eq_ok_iff line).mp h with ⟨hstar, rfl⟩ | ⟨pk, rk, rfl, hpk, hrk, rfl⟩
    · exact .deleteAll hstar
    · exact .delete hpk hrk
  · cases h

theorem parseChange_of_phrase (line : String) {fields : List (List Char)} {op : Operation} (h : Phrase fields op) :
    ∃ (opcode : String) (rest : List (List Char)), fields = opcode.toList :: op.table.toList :: rest ∧
      parseChange line opcode rest = .ok op.change := by
  cases h with
  | @row kind _ pk rk tokens properties hk h =>
    have hread : (parseRow line _).map (.row kind) = .ok (Change.row kind ⟨⟨pk, rk⟩, properties⟩) :=
      map_eq_ok_iff.mpr ⟨_, (parseRow_eq_ok_iff line).mpr ⟨tokens, rfl, h⟩, rfl⟩
    refine ⟨_, _, rfl, ?_⟩
    cases kind with
    | delete => exact absurd rfl hk
    | add | updateMerge | updateReplace | upsertMerge | upsertReplace => exact hread
  | updateAll h => exact ⟨_, _, rfl, map_eq_ok_iff.mpr ⟨_, parseProperties_empty_eq_ok_iff.mpr h, rfl⟩⟩
  | deleteAll hstar => exact ⟨_, _, rfl, (parseDeletion_eq_ok_iff line).mpr (.inl ⟨hstar, rfl⟩)⟩
  | @delete _ pk rk hpk hrk =>
    exact ⟨_, _, rfl, (parseDeletion_eq_ok_iff line).mpr (.inr ⟨pk, rk, rfl, hpk, hrk, rfl⟩)⟩

theorem isLine_of_parse {line : String} {op : Operation} (h : parse line = .ok op) : IsLine line op := by
  simp only [parse] at h
  split at h
  · cases h
  · rename_i hne
    have hfields : ∀ field ∈ line.toList.splitOn ' ', field ≠ [] := by
      intro field hm hempty
      exact hne (List.any_eq_true.mpr ⟨field, hm, List.isEmpty_iff.mpr hempty⟩)
    split at h
    · rename_i opcode table rest hsplit
      obtain ⟨change, hchange, rfl⟩ := map_eq_ok_iff.mp h
      have hphrase := phrase_of_parseChange (.ofList table) hchange
      rw [String.toList_ofList, String.toList_ofList] at hphrase
      exact ⟨_, splitOn_eq_iff.mp hsplit, hsplit ▸ hfields, hphrase⟩
    · cases h

theorem not_any_isEmpty {fields : List (List Char)} (h : ∀ field ∈ fields, field ≠ []) :
    ¬ fields.any (·.isEmpty) = true := by
  intro hany
  obtain ⟨field, hm, hempty⟩ := List.any_eq_true.mp hany
  exact h field hm (List.isEmpty_iff.mp hempty)

theorem parse_of_isLine {line : String} {op : Operation} (h : IsLine line op) : parse line = .ok op := by
  obtain ⟨fields, hsplits, hne, hphrase⟩ := h
  obtain ⟨opcode, rest, rfl, hchange⟩ := parseChange_of_phrase line hphrase
  simp only [parse, splitOn_eq_iff.mpr hsplits, not_any_isEmpty hne, String.ofList_toList, hchange]
  rfl

/-- Exactly the lines of the grammar are accepted, each as its operation. -/
theorem parse_eq_ok_iff (line : String) (op : Operation) : parse line = .ok op ↔ IsLine line op :=
  ⟨isLine_of_parse, parse_of_isLine⟩

example : parse "DELETE orders eu * o-1" = .ok ⟨"orders", .deleteAll⟩ := by rfl

end Operation

end TableMigrations
