/-
  TableMigrations.Proofs.JsonText — a JSON tree is read from the text it is printed as.

  Strings are escaped so that their bodies end where the quote is (`readBody_escape`) and say what was escaped
  (`unescape?_escape`). Numbers are printed by the grammar that they are read by (`Number.Grammatical`), and what may
  stand behind a value ends them (`readNumber_text`). Both together carry over to whole trees by induction on the tree,
  twice the length of the text being enough for the depth of its nesting (`readValue_compact`).
-/
import TableMigrations.Operation.Json
import TableMigrations.Proofs.ShortestText

namespace TableMigrations.Json

/-! ## strings -/

/-- The ways in which a character is written. -/
inductive Escaped (c : Char) : List Char → Prop
  | short {e : Char} (he : simpleEscape? e = some c) : Escaped c ['\\', e]
  | numbered (h : c.toNat < 0x20) : Escaped c ['\\', 'u', '0', '0', hexDigit (c.toNat / 16), hexDigit c.toNat]
  | plain (hq : c ≠ '"') (hb : c ≠ '\\') (h : ¬ c.toNat < 0x20) : Escaped c [c]

theorem escaped_escapeChar (c : Char) : Escaped c (escapeChar c) := by
  unfold escapeChar
  split_ifs with h₁ h₂ h₃ h₄ h₅ h₆ h₇ h₈
  · exact .short (by rw [h₁]; rfl)
  · exact .short (by rw [h₂]; rfl)
  · exact .short (by rw [h₃]; rfl)
  · exact .short (by rw [h₄]; rfl)
  · exact .short (by rw [h₅]; rfl)
  · exact .short (by rw [h₆]; rfl)
  · exact .short (by rw [h₇]; rfl)
  · exact .numbered h₈
  · exact .plain h₁ h₂ h₈

theorem hexNumber?_control : ∀ n < 0x20, Text.hexNumber? ['0', '0', hexDigit (n / 16), hexDigit n] = some n := by
  decide

theorem charOf?_toNat (c : Char) : Text.charOf? c.toNat = some c := by
  have hvalid : c.toNat.isValidChar := c.valid
  have hsame : Char.ofNatAux c.toNat hvalid = c := (dif_pos hvalid).symm.trans (Char.ofNat_toNat c)
  rw [Text.charOf?, dif_pos hvalid, hsame]

/-- A written character is read as the character, whatever follows. -/
theorem Escaped.unescape? {c : Char} {text : List Char} (h : Escaped c text) (r : List Char) :
    unescape? (text ++ r) = (unescape? r).map (c :: ·) := by
  cases h with
  | @short e he =>
    have hu : e ≠ 'u' := by rintro rfl; cases he
    rw [List.cons_append, List.singleton_append, Json.unescape?, he]
    · cases Json.unescape? r <;> rfl
    · intro a b c d r hu'; exact absurd hu' hu
  | numbered h =>
    have hsurrogate : ¬ (0xD800 ≤ c.toNat ∧ c.toNat < 0xDC00) := by omega
    simp only [List.cons_append, List.nil_append, Json.unescape?, hexNumber?_control c.toNat h, if_neg hsurrogate,
      charOf?_toNat]
    cases Json.unescape? r <;> rfl
  | plain hq hb h =>
    rw [List.singleton_append, Json.unescape?]
    · intro a b c d r hb'; exact absurd hb' hb
    · intro c r hb'; exact absurd hb' hb

/-- A written character does not end the body that it is in. -/
theorem Escaped.readBody {c : Char} {text : List Char} (h : Escaped c text) (r : List Char) :
    readBody (text ++ r) = (readBody r).map fun x => (text ++ x.1, x.2) := by
  cases h with
  | @short e he =>
    have hu : e ≠ 'u' := by rintro rfl; cases he
    rw [List.cons_append, List.singleton_append, Json.readBody, he]
    · rfl
    · intro a b c d r hu'; exact absurd hu' hu
  | numbered h =>
    simp only [List.cons_append, List.nil_append, Json.readBody, hexNumber?_control c.toNat h]
    rfl
  | plain hq hb h =>
    rw [List.singleton_append, Json.readBody, if_neg h]
    · rfl
    · intro hq'; exact absurd hq' hq
    · intro a b c d r hb'; exact absurd hb' hb
    · intro c r hb'; exact absurd hb' hb

theorem escape_cons (c : Char) (s : List Char) : escape (c :: s) = escapeChar c ++ escape s := List.flatMap_cons

/-- What is written of a string says the string. -/
theorem unescape?_escape (s : List Char) : unescape? (escape s) = some s := by
  induction s with
  | nil => rfl
  | cons c s ih => rw [escape_cons, (escaped_escapeChar c).unescape?, ih]; rfl

/-- What is written of a string ends at the quote behind it. -/
theorem readBody_escape (s r : List Char) : readBody (escape s ++ '"' :: r) = some (escape s, r) := by
  induction s with
  | nil => rfl
  | cons c s ih => rw [escape_cons, List.append_assoc, (escaped_escapeChar c).readBody, ih]; rfl

/-! ## numbers -/

/-- What may stand behind a value on one line: nothing, or what goes on with or ends an array or an object. -/
def Closes (r : List Char) : Prop := ∀ c ∈ r.head?, c = ',' ∨ c = ']' ∨ c = '\x7d'

def NoDigit (r : List Char) : Prop := ∀ c ∈ r.head?, c.isDigit = false

theorem Closes.noDigit {r : List Char} (h : Closes r) : NoDigit r := by
  intro c hc
  rcases h c hc with rfl | rfl | rfl <;> rfl

theorem readDigits_append {ds r : List Char} (h : IsDigits ds) (hne : ds ≠ []) (hr : NoDigit r) :
    readDigits (ds ++ r) = some (ds, r) := by
  have hcut : (ds ++ r).takeWhile Char.isDigit = ds ∧ (ds ++ r).dropWhile Char.isDigit = r := by
    cases r with
    | nil => simp only [List.append_nil, List.takeWhile_eq_self_iff.mpr h, List.dropWhile_eq_nil_iff.mpr h, and_self]
    | cons c r => exact ⟨takeWhile_digits h (hr c rfl), dropWhile_digits h (hr c rfl)⟩
  rw [readDigits, hcut.1, hcut.2]
  cases ds with
  | nil => exact absurd rfl hne
  | cons c ds => rfl

structure WholeDigits (ds : List Char) : Prop where
  digits : IsDigits ds
  leading : ∃ c r, ds = c :: r ∧ (c = '0' → r = [])

theorem readWhole_append {ds r : List Char} (h : WholeDigits ds) (hr : NoDigit r) :
    readWhole (ds ++ r) = some (ds, r) := by
  obtain ⟨c, ds, rfl, hzero⟩ := h.leading
  by_cases hc : c = '0'
  · obtain rfl := hzero hc
    subst hc
    cases r with
    | nil => rfl
    | cons d r =>
      rw [List.singleton_append, readWhole, if_neg (by rw [hr d rfl]; exact Bool.false_ne_true)]
  · rw [← readDigits_append h.digits (List.cons_ne_nil c ds) hr, List.cons_append, readWhole]
    intro d r hd
    exact absurd (List.cons.inj hd).1 hc

namespace Number

structure Grammatical (n : Number) : Prop where
  whole : WholeDigits n.whole
  fraction : IsDigits n.fraction
  exponent : ∀ x ∈ n.exponent, IsDigits x.2 ∧ x.2 ≠ []

def fractionText (fraction : List Char) : List Char := if fraction = [] then [] else '.' :: fraction

def exponentText : Option (ExponentSign × List Char) → List Char
  | none => []
  | some (sign, digits) => 'e' :: sign.text ++ digits

theorem text_eq (n : Number) :
    n.text = (if n.negative then ['-'] else []) ++ n.whole ++ fractionText n.fraction ++ exponentText n.exponent := by
  obtain ⟨negative, whole, fraction, _ | ⟨sign, digits⟩⟩ := n <;> rfl

theorem readExponentSign_append (sign : ExponentSign) {ds r : List Char} (h : IsDigits ds) (hne : ds ≠ []) :
    readExponentSign (sign.text ++ (ds ++ r)) = (sign, ds ++ r) := by
  cases sign with
  | plus | minus => rfl
  | absent =>
    obtain ⟨c, ds, rfl⟩ := List.exists_cons_of_ne_nil hne
    have hc := h c List.mem_cons_self
    show readExponentSign (c :: (ds ++ r)) = _
    rw [readExponentSign]
    · rfl
    · intro r' hr; rw [(List.cons.inj hr).1] at hc; cases hc
    · intro r' hr; rw [(List.cons.inj hr).1] at hc; cases hc

theorem readExponent_append {e : Option (ExponentSign × List Char)} {r : List Char}
    (h : ∀ x ∈ e, IsDigits x.2 ∧ x.2 ≠ []) (hr : Closes r) : readExponent (exponentText e ++ r) = some (e, r) := by
  cases e with
  | none =>
    cases r with
    | nil => rfl
    | cons c r => rcases hr c rfl with rfl | rfl | rfl <;> rfl
  | some x =>
    obtain ⟨sign, ds⟩ := x
    obtain ⟨hd, hne⟩ := h (sign, ds) rfl
    have hmark : ('e' == 'e' || 'e' == 'E') = true := rfl
    simp only [exponentText, List.cons_append, List.append_assoc, readExponent, hmark, if_true,
      readExponentSign_append sign hd hne, readDigits_append hd hne hr.noDigit, Option.map_some]

theorem noDigit_exponentText {e : Option (ExponentSign × List Char)} {r : List Char} (hr : Closes r) :
    NoDigit (exponentText e ++ r) := by
  cases e with
  | none => exact hr.noDigit
  | some x =>
    intro c hc
    cases hc
    rfl

theorem noDigit_fractionText {fraction r : List Char} (hr : NoDigit r) : NoDigit (fractionText fraction ++ r) := by
  unfold fractionText
  split_ifs
  · exact hr
  · intro c hc
    cases hc
    rfl

theorem readFraction_append {fraction : List Char} {e : Option (ExponentSign × List Char)} {r : List Char}
    (h : IsDigits fraction) (hr : Closes r) :
    readFraction (fractionText fraction ++ (exponentText e ++ r)) = some (fraction, exponentText e ++ r) := by
  unfold fractionText
  split_ifs with hf
  · subst hf
    rw [List.nil_append, readFraction]
    intro r' hpoint
    cases e with
    | none =>
      rcases hr '.' (by rw [show r = '.' :: r' from hpoint]; rfl) with h | h | h <;> cases h
    | some x => cases (List.cons.inj hpoint).1
  · exact readDigits_append h hf (noDigit_exponentText hr)

theorem readNumber_text {n : Number} (h : n.Grammatical) {r : List Char} (hr : Closes r) :
    readNumber (n.text ++ r) = some (n, r) := by
  obtain ⟨negative, whole, fraction, exponent⟩ := n
  obtain ⟨hw, hf, he⟩ := h
  have hread : ∀ negative, (do
      let w ← readWhole (whole ++ (fractionText fraction ++ (exponentText exponent ++ r)))
      let f ← readFraction w.2
      let e ← readExponent f.2
      return ((⟨negative, w.1, f.1, e.1⟩ : Number), e.2)) = some (⟨negative, whole, fraction, exponent⟩, r) := by
    intro negative
    rw [readWhole_append hw (noDigit_fractionText (noDigit_exponentText hr))]
    simp only [bind, Option.bind_some, readFraction_append hf hr, readExponent_append he hr]
    rfl
  rw [text_eq]
  simp only [List.append_assoc]
  cases negative with
  | true => exact hread true
  | false =>
    obtain ⟨c, ds, rfl, -⟩ := hw.leading
    have hc : c ≠ '-' := by rintro rfl; cases hw.digits _ List.mem_cons_self
    rw [← hread false]
    simp only [Bool.false_eq_true, if_false, List.nil_append, List.cons_append, readNumber]
    split
    · rename_i heq
      exact absurd (List.cons.inj heq).1 hc
    · rfl

theorem text_head {n : Number} (h : n.Grammatical) : ∃ c r, n.text = c :: r ∧ (c = '-' ∨ c.isDigit = true) := by
  obtain ⟨c, ds, hw, -⟩ := h.whole.leading
  have hc := h.whole.digits c (by rw [hw]; exact List.mem_cons_self)
  rw [text_eq, hw]
  cases n.negative with
  | true => exact ⟨_, _, rfl, Or.inl rfl⟩
  | false => exact ⟨_, _, rfl, Or.inr hc⟩

/-! ### writing -/

theorem head_toDigits {n : Nat} (h : 0 < n) : ∃ c r, Nat.toDigits 10 n = c :: r ∧ c ≠ '0' := by
  induction n using Nat.strongRecOn with
  | ind n ih =>
    rw [Nat.toDigits_eq_if (by omega)]
    split_ifs with hn
    · refine ⟨_, [], rfl, ?_⟩
      interval_cases n <;> decide
    · obtain ⟨c, r, hc, hne⟩ := ih (n / 10) (by omega) (by omega)
      exact ⟨c, _, by rw [hc, List.cons_append], hne⟩

theorem wholeDigits_toDigits (n : Nat) : WholeDigits (Nat.toDigits 10 n) := by
  refine ⟨isDigits_toDigits n, ?_⟩
  rcases Nat.eq_zero_or_pos n with rfl | hn
  · exact ⟨_, _, rfl, fun _ => rfl⟩
  · obtain ⟨c, r, hc, hne⟩ := head_toDigits hn
    exact ⟨c, r, hc, fun h => absurd h hne⟩

theorem wholeDigits_zero : WholeDigits ['0'] := ⟨isDigits_replicate 1, '0', [], rfl, fun _ => rfl⟩

theorem significant_head {d : Decimal} {c : Char} {r : List Char} (h : d.significant.1 = c :: r) : c ≠ '0' := by
  obtain ⟨k, hk⟩ := Decimal.exists_trailing_zeros (Nat.toDigits 10 d.digits)
  have hsplit : Nat.toDigits 10 d.digits = d.significant.1 ++ List.replicate k '0' := hk
  rcases Nat.eq_zero_or_pos d.digits with hd | hd
  · have hnone : d.significant.1 = [] := by rw [Decimal.significant, hd]; rfl
    rw [hnone] at h
    cases h
  · obtain ⟨c', r', hdigits, hne⟩ := head_toDigits hd
    rw [hdigits, h, List.cons_append] at hsplit
    exact (List.cons.inj hsplit).1 ▸ hne

theorem wholeDigits_positional {d : Decimal} (h : d.significant.1 ≠ []) : WholeDigits d.positional.1 := by
  refine ⟨d.positional_spec.1, ?_⟩
  obtain ⟨c, ds, hds⟩ := List.exists_cons_of_ne_nil h
  have hc := significant_head hds
  by_cases hpoint : d.significant.2 ≤ 0
  · exact ⟨'0', [], by simp only [Decimal.positional, hpoint, if_true], fun _ => rfl⟩
  · obtain ⟨n, hn⟩ : ∃ n, d.significant.2.toNat = n + 1 := ⟨d.significant.2.toNat - 1, by omega⟩
    have hwhole : d.positional.1 = c :: (ds.take n ++ List.replicate (n + 1 - (c :: ds).length) '0') := by
      simp only [Decimal.positional, hpoint, if_false, hds, hn, List.take_succ_cons, List.cons_append]
    exact ⟨c, _, hwhole, fun h => absurd h hc⟩

theorem grammatical_ofInt (n : Int) : (ofInt n).Grammatical := by
  refine ⟨wholeDigits_toDigits n.natAbs, ?_, ?_⟩
  · intro c hc; cases hc
  · intro x hx; cases hx

theorem grammatical_ofFinite (negative : Bool) (d : Decimal) : (ofFinite negative d).Grammatical := by
  obtain ⟨hd, -⟩ := d.significant_spec
  unfold ofFinite
  dsimp only
  by_cases hnil : d.significant.1 = []
  · rw [if_pos hnil]
    exact ⟨wholeDigits_zero, isDigits_replicate 1, by intro x hx; cases hx⟩
  rw [if_neg hnil]
  by_cases hfull : -5 < d.significant.2 ∧ d.significant.2 ≤ 16
  · rw [if_pos hfull]
    refine ⟨wholeDigits_positional hnil, ?_, by intro x hx; cases hx⟩
    dsimp only
    split_ifs
    · exact isDigits_replicate 1
    · exact d.positional_spec.2.1
  · rw [if_neg hfull]
    obtain ⟨c, ds, hds⟩ := List.exists_cons_of_ne_nil hnil
    rw [hds] at hd ⊢
    refine ⟨⟨?_, c, [], rfl, fun _ => rfl⟩, ?_, ?_⟩
    · intro x hx; exact hd x (List.mem_of_mem_take hx)
    · intro x hx; exact hd x (List.mem_of_mem_drop hx)
    · rintro ⟨sign, digits⟩ hx
      cases hx
      exact ⟨isDigits_toDigits _, Nat.toDigits_ne_nil⟩

theorem toInt64?_ofInt (n : Int64) : (ofInt n.toInt).toInt64? = some n := by
  have hlow := n.le_toInt
  have hhigh := n.toInt_lt
  have hhalf : int64Half = 2 ^ 63 := by decide
  have hplain : ¬ ((ofInt n.toInt).fraction ≠ [] ∨ (ofInt n.toInt).exponent.isSome = true) := by simp [ofInt]
  rw [toInt64?, if_neg hplain]
  simp only [ofInt, digitsValue_toDigits, decide_eq_true_eq]
  by_cases hneg : n.toInt < 0
  · rw [if_pos hneg, if_pos (by omega), show (-(n.toInt.natAbs : Int)) = n.toInt by omega, Int64.ofInt_toInt]
  · rw [if_neg hneg, if_pos (by omega), show (n.toInt.natAbs : Int) = n.toInt by omega, Int64.ofInt_toInt]

end Number

/-! ## trees -/

/-- Trees whose numbers are as the grammar has them and whose strings are written as strings are. -/
inductive WellFormed : Json → Prop
  | null : WellFormed .null
  | bool (b : Bool) : WellFormed (.bool b)
  | number {n : Number} (h : n.Grammatical) : WellFormed (.number n)
  | string (s : List Char) : WellFormed (.string (escape s))
  | array {items : List Json} (h : ∀ j ∈ items, WellFormed j) : WellFormed (.array items)
  | object {fields : List (List Char × Json)} (names : ∀ f ∈ fields, ∃ s, f.1 = escape s)
    (h : ∀ f ∈ fields, WellFormed f.2) : WellFormed (.object fields)

theorem skipBlank_cons {c : Char} (h : isBlank c = false) (r : List Char) : skipBlank (c :: r) = c :: r :=
  List.dropWhile_cons_of_neg (by simp [h])

/-- What a tree is printed as begins with neither a blank nor the end of an array. -/
theorem compact_head {j : Json} (h : WellFormed j) :
    ∃ c r, compact j = c :: r ∧ isBlank c = false ∧ c ≠ ']' := by
  cases h with
  | null => exact ⟨_, _, rfl, rfl, by decide⟩
  | bool b => cases b <;> exact ⟨_, _, rfl, rfl, by decide⟩
  | number h =>
    obtain ⟨c, r, ht, hc⟩ := Number.text_head h
    refine ⟨c, r, by rw [compact, ht], ?_⟩
    rcases hc with rfl | hc
    · exact ⟨rfl, by decide⟩
    · constructor
      · rw [isBlank]
        simp only [Bool.or_eq_false_iff, beq_eq_false_iff_ne]
        refine ⟨⟨⟨?_, ?_⟩, ?_⟩, ?_⟩ <;> (rintro rfl; cases hc)
      · rintro rfl; cases hc
  | string s => exact ⟨_, _, rfl, rfl, by decide⟩
  | array h => exact ⟨_, _, by rw [compact]; rfl, rfl, by decide⟩
  | object names h => exact ⟨_, _, by rw [compact]; rfl, rfl, by decide⟩

theorem skipBlank_compact {j : Json} (h : WellFormed j) (r : List Char) :
    skipBlank (compact j ++ r) = compact j ++ r := by
  obtain ⟨c, t, ht, hc, -⟩ := compact_head h
  rw [ht, List.cons_append, skipBlank_cons hc]

theorem compactItems_head {j : Json} (h : WellFormed j) (items : List Json) :
    ∃ c r, compactItems (j :: items) = c :: r ∧ isBlank c = false ∧ c ≠ ']' := by
  obtain ⟨c, r, hc, hhead⟩ := compact_head h
  cases items with
  | nil => exact ⟨c, r, by rw [compactItems, hc], hhead⟩
  | cons k items => exact ⟨c, _, by rw [compactItems, hc, List.cons_append], hhead⟩

theorem compactFields_head (f : List Char × Json) (fields : List (List Char × Json)) :
    ∃ r, compactFields (f :: fields) = '"' :: r := by
  cases fields <;> exact ⟨_, rfl⟩

theorem length_compact_pos {j : Json} (h : WellFormed j) : 0 < (compact j).length := by
  obtain ⟨c, t, ht, -⟩ := compact_head h
  rw [ht]
  exact Nat.succ_pos _

/-- The tree is read from what it is printed as, with fuel for twice as many characters. -/
def ReadsBack (j : Json) : Prop :=
  ∀ fuel r, 2 * (compact j).length ≤ fuel + 1 → Closes r → readValue fuel (compact j ++ r) = some (j, r)

theorem readItems_compact {items : List Json} (hne : items ≠ []) (hwf : ∀ j ∈ items, WellFormed j)
    (h : ∀ j ∈ items, ReadsBack j) (fuel : Nat) (hfuel : 2 * (compactItems items).length ≤ fuel) (r : List Char) :
    readItems fuel (compactItems items ++ ']' :: r) = some (items, r) := by
  induction items generalizing fuel with
  | nil => exact absurd rfl hne
  | cons j items ih =>
    have hj := hwf j List.mem_cons_self
    have hpos := length_compact_pos hj
    cases items with
    | nil =>
      rw [compactItems] at hfuel ⊢
      obtain ⟨fuel, rfl⟩ : ∃ k, fuel = k + 1 := ⟨fuel - 1, by omega⟩
      have hread := h j List.mem_cons_self fuel (']' :: r) (by omega)
        (by intro c hc; cases hc; exact Or.inr (Or.inl rfl))
      simp only [readItems, skipBlank_compact hj, hread, skipBlank_cons (c := ']') rfl]
    | cons k items =>
      rw [compactItems] at hfuel ⊢
      rw [List.length_append, List.length_cons] at hfuel
      obtain ⟨fuel, rfl⟩ : ∃ k, fuel = k + 1 := ⟨fuel - 1, by omega⟩
      have hread := h j List.mem_cons_self fuel (',' :: (compactItems (k :: items) ++ ']' :: r)) (by omega)
        (by intro c hc; cases hc; exact Or.inl rfl)
      have hrest := ih (List.cons_ne_nil k items) (fun j hj => hwf j (List.mem_cons_of_mem _ hj))
        (fun j hj => h j (List.mem_cons_of_mem _ hj)) fuel (by omega)
      rw [List.append_assoc, List.cons_append]
      simp only [readItems, skipBlank_compact hj, hread, skipBlank_cons (c := ',') rfl, hrest, Option.map_some]

theorem readFields_compact {fields : List (List Char × Json)} (hne : fields ≠ [])
    (hnames : ∀ f ∈ fields, ∃ s, f.1 = escape s) (hwf : ∀ f ∈ fields, WellFormed f.2)
    (h : ∀ f ∈ fields, ReadsBack f.2) (fuel : Nat) (hfuel : 2 * (compactFields fields).length ≤ fuel)
    (r : List Char) : readFields fuel (compactFields fields ++ '\x7d' :: r) = some (fields, r) := by
  induction fields generalizing fuel with
  | nil => exact absurd rfl hne
  | cons f fields ih =>
    obtain ⟨name, j⟩ := f
    obtain ⟨s, rfl⟩ : ∃ s, name = escape s := hnames _ List.mem_cons_self
    have hj : WellFormed j := hwf _ List.mem_cons_self
    cases fields with
    | nil =>
      rw [compactFields] at hfuel ⊢
      rw [List.length_append, List.length_cons] at hfuel
      obtain ⟨fuel, rfl⟩ : ∃ k, fuel = k + 1 := ⟨fuel - 1, by omega⟩
      have hread := h _ List.mem_cons_self fuel ('\x7d' :: r) (by simp only; omega)
        (by intro c hc; cases hc; exact Or.inr (Or.inr rfl))
      simp only [quoted, List.cons_append, List.append_assoc, List.nil_append, readFields,
        skipBlank_cons (c := '"') rfl, readBody_escape, skipBlank_cons (c := ':') rfl,
        skipBlank_compact hj, hread, skipBlank_cons (c := '\x7d') rfl]
    | cons g fields =>
      rw [compactFields] at hfuel ⊢
      simp only [List.length_append, List.length_cons] at hfuel
      obtain ⟨fuel, rfl⟩ : ∃ k, fuel = k + 1 := ⟨fuel - 1, by omega⟩
      have hread := h _ List.mem_cons_self fuel (',' :: (compactFields (g :: fields) ++ '\x7d' :: r))
        (by simp only; omega) (by intro c hc; cases hc; exact Or.inl rfl)
      have hrest := ih (List.cons_ne_nil g fields) (fun f hf => hnames f (List.mem_cons_of_mem _ hf))
        (fun f hf => hwf f (List.mem_cons_of_mem _ hf)) (fun f hf => h f (List.mem_cons_of_mem _ hf)) fuel (by omega)
      simp only [quoted, List.cons_append, List.append_assoc, List.nil_append, readFields,
        skipBlank_cons (c := '"') rfl, readBody_escape, skipBlank_cons (c := ':') rfl,
        skipBlank_compact hj, hread, skipBlank_cons (c := ',') rfl, hrest, Option.map_some]

theorem readValue_number {n : Number} (h : n.Grammatical) (fuel : Nat) {r : List Char} (hr : Closes r) :
    readValue (fuel + 1) (n.text ++ r) = some (.number n, r) := by
  have hread := Number.readNumber_text h hr
  obtain ⟨c, t, ht, hc⟩ := Number.text_head h
  rw [ht, List.cons_append] at hread ⊢
  -- none of the letters, quotes and brackets that open the other values opens a number
  have hne : ∀ d ∈ ['n', 't', 'f', '"', '[', '\x7b'], c ≠ d := by
    intro d hd hcd
    subst hcd
    rcases hc with rfl | hc
    · revert hd; decide
    · fin_cases hd <;> cases hc
  rw [readValue, hread]
  · rfl
  all_goals
    intro r' hr'
    exact absurd (List.cons.inj hr').1 (hne _ (by decide))

theorem readsBack {j : Json} (h : WellFormed j) : ReadsBack j := by
  induction h with
  | null =>
    intro fuel r hfuel _
    obtain ⟨fuel, rfl⟩ : ∃ k, fuel = k + 1 := ⟨fuel - 1, by simp [compact] at hfuel; omega⟩
    rfl
  | bool b =>
    intro fuel r hfuel _
    obtain ⟨fuel, rfl⟩ : ∃ k, fuel = k + 1 := ⟨fuel - 1, by cases b <;> simp [compact] at hfuel <;> omega⟩
    cases b <;> rfl
  | @number n h =>
    intro fuel r hfuel hr
    have hpos := length_compact_pos (.number h)
    obtain ⟨fuel, rfl⟩ : ∃ k, fuel = k + 1 := ⟨fuel - 1, by omega⟩
    rw [compact]
    exact readValue_number h fuel hr
  | string s =>
    intro fuel r hfuel _
    have hpos := length_compact_pos (.string s)
    obtain ⟨fuel, rfl⟩ : ∃ k, fuel = k + 1 := ⟨fuel - 1, by omega⟩
    simp only [compact, quoted, List.cons_append, List.append_assoc, List.nil_append, readValue, readBody_escape,
      Option.map_some]
  | @array items h ih =>
    intro fuel r hfuel _
    rw [compact, List.length_append, List.length_cons, List.length_singleton] at hfuel
    obtain ⟨fuel, rfl⟩ : ∃ k, fuel = k + 1 := ⟨fuel - 1, by omega⟩
    rw [compact, List.cons_append, List.cons_append, List.append_assoc, List.singleton_append, readValue]
    cases items with
    | nil => rfl
    | cons j items =>
      have hread := readItems_compact (List.cons_ne_nil j items) h ih fuel (by omega) r
      obtain ⟨c, t, ht, hc, hend⟩ := compactItems_head (h j List.mem_cons_self) items
      rw [ht, List.cons_append] at hread ⊢
      rw [skipBlank_cons hc]
      split
      · rename_i heq
        exact absurd (List.cons.inj heq).1 hend
      · rw [hread]; rfl
  | @object fields names h ih =>
    intro fuel r hfuel _
    rw [compact, List.length_append, List.length_cons, List.length_singleton] at hfuel
    obtain ⟨fuel, rfl⟩ : ∃ k, fuel = k + 1 := ⟨fuel - 1, by omega⟩
    rw [compact, List.cons_append, List.cons_append, List.append_assoc, List.singleton_append, readValue]
    cases fields with
    | nil => rfl
    | cons f fields =>
      have hread := readFields_compact (List.cons_ne_nil f fields) names h ih fuel (by omega) r
      obtain ⟨t, ht⟩ := compactFields_head f fields
      rw [ht, List.cons_append] at hread ⊢
      rw [skipBlank_cons rfl]
      show (readFields fuel _).map _ = _
      rw [hread]; rfl

/-- A text is read as the tree that it was printed from. -/
theorem read?_compact {j : Json} (h : WellFormed j) : read? (compact j) = some j := by
  have hread := readsBack h (2 * (compact j).length + 1) [] (by omega) (by intro c hc; cases hc)
  have hskip := skipBlank_compact h []
  rw [List.append_nil] at hread hskip
  rw [read?, hskip, hread]
  rfl

end TableMigrations.Json
