/-
  TableMigrations.Proofs.ShortestText — what is written of a finite double is read back as that double.

  The digits that are chosen name the magnitude, for they are tried before they are taken, and the exact expansion
  names it in any case (`isNearest_shortest`). Laying digits out keeps their value (`positional_spec`), so that the
  text, read as the double nearest to its value, gives the double again (`lineText_reads`).
-/
import TableMigrations.Proofs.NumberText

namespace TableMigrations

namespace Decimal

def value (d : Decimal) : ℚ := d.digits * 10 ^ d.exponent

/-! ## the digits -/

theorem isNearest_of_names {d : Decimal} {code : Nat} (h : d.names code = true) : IsNearest d.value code := by
  obtain ⟨c, hc, hx⟩ := Double.rounds_ofDecimal false d.digits d.exponent
  rw [names, hx, Double.ofCode] at h
  split at h
  · rename_i heq
    split at heq
    · cases heq
      rwa [← eq_of_beq h]
    · cases heq
  · cases h

theorem value_ofCode (code : Nat) : (ofCode code).value = magnitudeOf code := by
  have hpow : (5 : ℚ) ^ 1074 * ((10 : ℚ) ^ 1074)⁻¹ = (2 ^ 1074)⁻¹ := by
    rw [show (10 : ℚ) = 2 * 5 by norm_num, mul_pow, mul_inv, mul_left_comm, mul_inv_cancel₀ (by positivity), mul_one]
  simp only [value, ofCode, Nat.pow_eq, Nat.cast_mul, Nat.cast_pow, Nat.cast_ofNat, zpow_neg, zpow_ofNat, mul_assoc,
    hpow, magnitudeOf, div_eq_mul_inv]

theorem names_of_onGrid {tie : Tie} {exact d : Decimal} {code n : Nat} (h : onGrid tie exact code n = some d) :
    d.names code = true := by
  simp only [onGrid] at h
  split at h
  · cases h
  · cases h; assumption
  · cases h; assumption
  · rename_i hbelow habove
    split at h
    · cases h; exact hbelow
    · split at h
      · cases h; exact habove
      · cases tie with
        | up => cases h; exact habove
        | even =>
          cases h
          split
          · exact hbelow
          · exact habove

/-- The digits that are chosen for a magnitude name it. -/
theorem isNearest_shortest (tie : Tie) (code : Nat) : IsNearest (shortest tie code).value code := by
  rw [shortest]
  split
  · rename_i h0
    have : (⟨0, 0⟩ : Decimal).value = magnitudeOf 0 := by simp [value]
    rw [h0, this]
    exact isNearest_magnitudeOf 0
  · rcases hfind : (List.range 17).findSome? fun n => onGrid tie (ofCode code) code (n + 1) with _ | d
    · show IsNearest (((List.range 17).findSome? _).getD (ofCode code)).value code
      rw [hfind, Option.getD_none, value_ofCode]
      exact isNearest_magnitudeOf code
    · show IsNearest (((List.range 17).findSome? _).getD (ofCode code)).value code
      obtain ⟨n, -, hn⟩ := List.exists_of_findSome?_eq_some hfind
      rw [hfind, Option.getD_some]
      exact isNearest_of_names (names_of_onGrid hn)

/-! ## the layout -/

/-- The number of digits with so many of them after the point. -/
def pointValue (whole fraction : List Char) : ℚ := digitsValue (whole ++ fraction) * 10 ^ (-(fraction.length : ℤ))

theorem pointValue_zero (whole : List Char) : pointValue whole ['0'] = pointValue whole [] := by
  have hvalue : digitsValue (whole ++ ['0']) = 10 * digitsValue whole := by
    rw [digitsValue_append]
    rfl
  simp only [pointValue, hvalue, List.append_nil, List.length_nil, List.length_cons]
  push_cast
  ring

theorem exists_trailing_zeros (l : List Char) :
    ∃ k, l = (l.reverse.dropWhile (· == '0')).reverse ++ List.replicate k '0' := by
  have hzeros : l.reverse.takeWhile (· == '0') = List.replicate (l.reverse.takeWhile (· == '0')).length '0' := by
    apply List.eq_replicate_of_mem
    intro c hc
    exact eq_of_beq (List.mem_takeWhile_imp (p := (· == '0')) hc)
  refine ⟨(l.reverse.takeWhile (· == '0')).length, ?_⟩
  rw [← List.reverse_replicate, ← hzeros, ← List.reverse_append, List.takeWhile_append_dropWhile, List.reverse_reverse]

/-- Significant digits have the value that they were taken from. -/
theorem significant_spec (d : Decimal) :
    IsDigits d.significant.1 ∧
      digitsValue d.significant.1 * (10 : ℚ) ^ (d.significant.2 - d.significant.1.length) = d.value := by
  obtain ⟨k, hk⟩ := exists_trailing_zeros (Nat.toDigits 10 d.digits)
  obtain ⟨ds, hds⟩ : ∃ ds, ((Nat.toDigits 10 d.digits).reverse.dropWhile (· == '0')).reverse = ds := ⟨_, rfl⟩
  rw [hds] at hk
  have hsplit : IsDigits (ds ++ List.replicate k '0') := hk ▸ isDigits_toDigits d.digits
  have hvalue : d.digits = 10 ^ k * digitsValue ds := by
    have := digitsValue_toDigits d.digits
    rw [hk, digitsValue_append, digitsValue_zeros, List.length_replicate] at this
    exact this.symm
  simp only [significant, hds]
  refine ⟨(isDigits_append.mp hsplit).1, ?_⟩
  rw [hk, List.length_append, List.length_replicate, value, hvalue]
  push_cast
  rw [show (ds.length : ℤ) + k + d.exponent - ds.length = k + d.exponent by ring, zpow_add₀ (by norm_num), zpow_natCast]
  ring

/-- The positional layout is digits, some of them before the point, of the same value. -/
theorem positional_spec (d : Decimal) :
    IsDigits d.positional.1 ∧ IsDigits d.positional.2 ∧ d.positional.1 ≠ [] ∧
      pointValue d.positional.1 d.positional.2 = d.value := by
  obtain ⟨hd, hvalue⟩ := d.significant_spec
  obtain ⟨⟨ds, point⟩, hs⟩ : ∃ s, d.significant = s := ⟨_, rfl⟩
  rw [hs] at hd hvalue
  simp only [positional, hs, pointValue, ← hvalue]
  by_cases hpoint : point ≤ 0
  · -- the digits stand after the point, and zeros before them
    rw [if_pos hpoint]
    refine ⟨isDigits_replicate 1, isDigits_append.mpr ⟨isDigits_replicate _, hd⟩, by simp, ?_⟩
    have hzero : digitsValue (['0'] ++ (List.replicate (-point).toNat '0' ++ ds)) = digitsValue ds :=
      (digitsValue_zeros_append 1 _).trans (digitsValue_zeros_append _ ds)
    have hlength : -((List.replicate (-point).toNat '0' ++ ds).length : ℤ) = point - ds.length := by
      rw [List.length_append, List.length_replicate]
      omega
    rw [hzero, hlength]
  · rw [if_neg hpoint]
    refine ⟨isDigits_append.mpr ⟨fun c hc => hd c (List.mem_of_mem_take hc), isDigits_replicate _⟩,
      fun c hc => hd c (List.mem_of_mem_drop hc), ?_, ?_⟩
    · intro hnil
      have := congrArg List.length hnil
      rw [List.length_append, List.length_take, List.length_replicate, List.length_nil] at this
      omega
    · by_cases hlen : ds.length ≤ point.toNat
      · have hexponent : point - (ds.length : ℤ) = (point.toNat - ds.length : Nat) := by omega
        rw [List.take_of_length_le hlen, List.drop_of_length_le hlen, List.append_nil, digitsValue_append,
          digitsValue_zeros, List.length_replicate, hexponent, zpow_natCast, List.length_nil, Nat.cast_zero, neg_zero,
          zpow_zero]
        push_cast
        ring
      · have hexponent : point - (ds.length : ℤ) = -((ds.drop point.toNat).length : ℤ) := by
          rw [List.length_drop]
          omega
        rw [hexponent, show point.toNat - ds.length = 0 by omega, List.replicate_zero, List.append_nil,
          List.take_append_drop]

end Decimal

/-! ## the text -/

namespace Double

theorem lineText_finite (negative : Bool) (c : Fin infinityCode) :
    ∃ sign whole fraction, SignText negative sign ∧ IsDigits whole ∧ IsDigits fraction ∧ whole ≠ [] ∧
      (finite negative c).lineText = sign ++ (whole ++ '.' :: fraction) ∧
      IsNearest (Decimal.pointValue whole fraction) c := by
  obtain ⟨hw, hf, hne, hvalue⟩ := (Decimal.shortest .up c).positional_spec
  have hnear := Decimal.isNearest_shortest .up c
  obtain ⟨⟨whole, fraction⟩, hp⟩ : ∃ p, (Decimal.shortest .up c).positional = p := ⟨_, rfl⟩
  rw [hp] at hw hf hne hvalue
  obtain ⟨sign, hs, hsign⟩ : ∃ sign, SignText negative sign ∧ ∀ text, signed negative text = sign ++ text := by
    cases negative with
    | false => exact ⟨[], .none, fun _ => rfl⟩
    | true => exact ⟨['-'], .minus, fun _ => rfl⟩
  have hfinite : (finite negative c).isFinite = true := rfl
  by_cases hfraction : fraction = []
  · -- a whole number is given a point
    subst hfraction
    have hpoint : (sign ++ whole).contains '.' = false := by
      rw [List.contains_eq_mem, decide_eq_false_iff_not, List.mem_append, not_or]
      exact ⟨hs.not_mem_point, not_mem_of_isDigits hw rfl⟩
    refine ⟨sign, whole, ['0'], hs, hw, isDigits_replicate 1, hne, ?_, ?_⟩
    · simp only [lineText, plainText, hp, hsign, if_true, hfinite, hpoint]
      simp
    · rw [Decimal.pointValue_zero, hvalue]
      exact hnear
  · have hpoint : (sign ++ (whole ++ '.' :: fraction)).contains '.' = true := by
      simp
    refine ⟨sign, whole, fraction, hs, hw, hf, hne, ?_, hvalue ▸ hnear⟩
    simp only [lineText, plainText, hp, hsign, hfraction, if_false, hpoint]
    simp

/-- A finite double is written as a text of it. -/
theorem lineText_reads {x : Double} (h : x.isFinite = true) : DoubleText x.lineText x := by
  cases x with
  | finite negative c =>
    obtain ⟨sign, whole, fraction, hs, hw, hf, hne, htext, hnear⟩ := lineText_finite negative c
    refine ⟨negative, sign, whole, fraction, [], 0, hs, hw, hf, fun h => hne h.1, .none, ?_, c, ?_, ?_⟩
    · rw [htext, List.append_nil]
    · rw [zero_sub]; exact hnear
    · rw [ofCode, dif_pos c.isLt]
  | infinite | nan => cases h

end Double

end TableMigrations
