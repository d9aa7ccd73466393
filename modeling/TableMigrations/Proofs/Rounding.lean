/-
  TableMigrations.Proofs.Rounding — a decimal number is read as the double nearest to it.

  The magnitude of every code is a rational number, also past the finite ones, as if exponents had no end. A code is
  nearest to a number if no other is nearer, and even if another is as near (`IsNearest`); there is one such code for
  each number, since of two neighbours only one is even (`IsNearest.unique`). Rounding in units of the spacing finds it
  (`isNearest_nearestCode`), and the bounds past which decimals are not worked out are beyond all that matters
  (`rounds_ofDecimal`).
-/
import Mathlib
import TableMigrations.Number.Decimal

namespace TableMigrations

/-! ## rounding to whole numbers -/

/-- The rounded quotient is no more than one half away, and even if it is that far. -/
theorem roundHalfEven_near (num : Nat) {den : Nat} (hd : 0 < den) :
    |(num : ℚ) / den - roundHalfEven num den| ≤ 1 / 2 ∧
      (|(num : ℚ) / den - roundHalfEven num den| = 1 / 2 → roundHalfEven num den % 2 = 0) := by
  have hden : (0 : ℚ) < den := by exact_mod_cast hd
  have hsplit : (num : ℚ) / den = (num / den : Nat) + ((num % den : Nat) : ℚ) / den := by
    have : (num : ℚ) = den * (num / den : Nat) + (num % den : Nat) := by exact_mod_cast (Nat.div_add_mod num den).symm
    rw [← mul_div_cancel_left₀ ((num / den : Nat) : ℚ) hden.ne', ← add_div, ← this]
  obtain ⟨q, hq⟩ : ∃ q, q = num / den := ⟨_, rfl⟩
  obtain ⟨r, hr⟩ : ∃ r, r = num % den := ⟨_, rfl⟩
  rw [hsplit, ← hq, ← hr, roundHalfEven, ← hq, ← hr]
  have hpos : 0 ≤ (r : ℚ) / den := by positivity
  by_cases hlow : 2 * r < den
  · have hhalf : (r : ℚ) / den < 1 / 2 := by
      rw [div_lt_div_iff₀ hden two_pos]
      have : (2 * r : ℚ) < den := by exact_mod_cast hlow
      linarith
    simp only [hlow, if_true, add_sub_cancel_left, abs_of_nonneg hpos]
    exact ⟨hhalf.le, fun h => absurd h hhalf.ne⟩
  · by_cases hhigh : den < 2 * r
    · have hhalf : 1 / 2 < (r : ℚ) / den := by
        rw [div_lt_div_iff₀ two_pos hden]
        have : (den : ℚ) < 2 * r := by exact_mod_cast hhigh
        linarith
      have hone : (r : ℚ) / den < 1 := by
        rw [div_lt_one hden]
        exact_mod_cast hr ▸ Nat.mod_lt num hd
      have habs : |(q : ℚ) + r / den - (q + 1 : Nat)| = 1 - r / den := by
        rw [abs_of_nonpos (by push_cast; linarith)]
        push_cast; ring
      simp only [hlow, hhigh, if_true, if_false, habs]
      exact ⟨by linarith, fun h => by linarith⟩
    · have hhalf : (r : ℚ) / den = 1 / 2 := by
        rw [div_eq_div_iff hden.ne' two_ne_zero]
        have : (2 * r : ℚ) = den := by exact_mod_cast (show 2 * r = den by omega)
        linarith
      simp only [hlow, hhigh, if_false, hhalf]
      refine ⟨?_, fun _ => by omega⟩
      rcases Nat.mod_two_eq_zero_or_one q with h | h
      · rw [h, Nat.add_zero, add_sub_cancel_left]
        norm_num
      · rw [h]; push_cast
        norm_num

/-- Of a number that is no more than one half from a whole one, every other whole number is at least that far. -/
theorem half_le_of_near {x : ℚ} {n k : Nat} (h : |x - n| ≤ 1 / 2) (hk : k ≠ n) : 1 / 2 ≤ |x - k| := by
  have hone : (1 : ℚ) ≤ |(n : ℚ) - k| := by
    have : (1 : ℤ) ≤ |(n : ℤ) - k| := Int.one_le_abs (by omega)
    exact_mod_cast this
  have htriangle : |(n : ℚ) - k| ≤ |x - n| + |x - k| := by
    rw [abs_sub_comm x n]
    exact abs_sub_le _ _ _
  linarith

/-! ## magnitudes -/

/-- The units of a code, by its spacing and how many of these it has. -/
theorem unitsOf_grid {s m : Nat} (hm : m ≤ 2 ^ 53) (hs : s = 0 ∨ 2 ^ 52 ≤ m) : unitsOf (s * 2 ^ 52 + m) = m * 2 ^ s := by
  simp only [unitsOf, spacingOf, Nat.shiftRight_eq_div_pow, Nat.shiftLeft_eq]
  by_cases hfull : m = 2 ^ 53
  · subst hfull
    have : (s * 2 ^ 52 + 2 ^ 53) / 2 ^ 52 - 1 = s + 1 := by omega
    rw [this, show s * 2 ^ 52 + 2 ^ 53 - (s + 1) * 2 ^ 52 = 2 ^ 52 by omega, pow_succ 2 s]
    ring
  · have : (s * 2 ^ 52 + m) / 2 ^ 52 - 1 = s := by omega
    rw [this, Nat.add_sub_cancel_left]

/-- Every code has a spacing, and fewer of it than twice as many as there are at that size. -/
theorem exists_grid (c : Nat) : ∃ s m, c = s * 2 ^ 52 + m ∧ m < 2 ^ 53 ∧ (s = 0 ∨ 2 ^ 52 ≤ m) :=
  ⟨c / 2 ^ 52 - 1, c - (c / 2 ^ 52 - 1) * 2 ^ 52, by omega, by omega, by omega⟩

theorem unitsOf_strictMono : StrictMono unitsOf := by
  apply strictMono_nat_of_lt_succ
  intro c
  obtain ⟨s, m, rfl, hm, hs⟩ := exists_grid c
  rw [unitsOf_grid hm.le hs, Nat.add_assoc, unitsOf_grid (by omega) (by omega)]
  exact Nat.mul_lt_mul_of_pos_right (Nat.lt_succ_self m) (Nat.two_pow_pos s)

/-- The number that a code stands for, as if exponents had no end. -/
def magnitudeOf (code : Nat) : ℚ := unitsOf code / 2 ^ 1074

theorem magnitudeOf_strictMono : StrictMono magnitudeOf := by
  intro a b h
  have : (unitsOf a : ℚ) < unitsOf b := by exact_mod_cast unitsOf_strictMono h
  exact div_lt_div_of_pos_right this (by positivity)

@[simp] theorem magnitudeOf_zero : magnitudeOf 0 = 0 := by
  rw [magnitudeOf, show unitsOf 0 = 0 from rfl]
  simp

theorem magnitudeOf_infinityCode : magnitudeOf infinityCode = 2 ^ 1024 := by
  have : unitsOf infinityCode = 2 ^ 52 * 2 ^ 2046 := by
    rw [show infinityCode = 2046 * 2 ^ 52 + 2 ^ 52 from rfl]
    exact unitsOf_grid (by norm_num) (Or.inr le_rfl)
  have hpow : (2 : ℚ) ^ 52 * 2 ^ 2046 = 2 ^ 1024 * 2 ^ 1074 := by
    simp only [← pow_add]
  rw [magnitudeOf, this, Nat.cast_mul, Nat.cast_pow, Nat.cast_pow, Nat.cast_ofNat, div_eq_iff (by positivity)]
  exact hpow

/-! ## the nearest code -/

/-- No code is nearer to the number, and if another is as near then this one is even. -/
structure IsNearest (q : ℚ) (code : Nat) : Prop where
  closest : ∀ j, |q - magnitudeOf code| ≤ |q - magnitudeOf j|
  even_of_tie : ∀ j ≠ code, |q - magnitudeOf j| = |q - magnitudeOf code| → code % 2 = 0

/-- Two codes that are as near as any have another between them unless one of them is odd. -/
theorem IsNearest.not_lt {q : ℚ} {a b : Nat} (ha : IsNearest q a) (hb : IsNearest q b) : ¬ a < b := by
  intro h
  have htie : |q - magnitudeOf b| = |q - magnitudeOf a| := le_antisymm (hb.closest a) (ha.closest b)
  have heven := ha.even_of_tie b h.ne' htie
  have heven' := hb.even_of_tie a h.ne htie.symm
  have hlow : magnitudeOf a < magnitudeOf (a + 1) := magnitudeOf_strictMono (by omega)
  have hhigh : magnitudeOf (a + 1) < magnitudeOf b := magnitudeOf_strictMono (by omega)
  have hbetween := ha.closest (a + 1)
  rcases abs_eq_abs.mp htie with heq | heq
  · linarith
  · have : |q - magnitudeOf (a + 1)| < |q - magnitudeOf a| := by
      rw [abs_of_nonneg (a := q - magnitudeOf a) (by linarith), abs_lt]
      constructor <;> linarith
    linarith

theorem IsNearest.unique {q : ℚ} {a b : Nat} (ha : IsNearest q a) (hb : IsNearest q b) : a = b :=
  Nat.le_antisymm (Nat.le_of_not_lt (hb.not_lt ha)) (Nat.le_of_not_lt (ha.not_lt hb))

theorem isNearest_magnitudeOf (c : Nat) : IsNearest (magnitudeOf c) c := by
  constructor
  · intro j
    rw [sub_self, abs_zero]
    exact abs_nonneg _
  · intro j hj htie
    rw [sub_self, abs_zero, abs_eq_zero, sub_eq_zero] at htie
    exact absurd (magnitudeOf_strictMono.injective htie).symm hj

/-- A number less than half of the smallest magnitude vanishes. -/
theorem isNearest_zero {q : ℚ} (h0 : 0 ≤ q) (h : 2 * q < magnitudeOf 1) : IsNearest q 0 := by
  constructor
  · intro j
    rcases Nat.eq_zero_or_pos j with rfl | hj
    · exact le_rfl
    · have : magnitudeOf 1 ≤ magnitudeOf j := magnitudeOf_strictMono.monotone hj
      rw [magnitudeOf_zero, sub_zero, abs_of_nonneg h0, abs_of_nonpos (by linarith)]
      linarith
  · intro j _ _
    rfl

/-- A number past the finite magnitudes is not near to any of them. -/
theorem IsNearest.infinityCode_le {q : ℚ} {c : Nat} (hc : IsNearest q c) (h : magnitudeOf infinityCode ≤ q) :
    infinityCode ≤ c := by
  by_contra hlt
  have hmag := magnitudeOf_strictMono (Nat.lt_of_not_le hlt)
  have hnear := hc.closest infinityCode
  rw [abs_of_nonneg (by linarith), abs_of_nonneg (by linarith)] at hnear
  linarith

/-! ## rounding in units of the spacing -/

/-- The quotient in units of its spacing, and what it is rounded to. -/
theorem rounded_grid (units : Nat) {den : Nat} (hd : 0 < den) {s : Nat} (hs : s = (units / den).log2 - 52) :
    roundHalfEven units (den * 2 ^ s) ≤ 2 ^ 53 ∧
      (s = 0 ∨ 2 ^ 52 ≤ roundHalfEven units (den * 2 ^ s) ∧ (2 : ℚ) ^ 52 ≤ (units : ℚ) / (den * 2 ^ s : Nat)) := by
  have hden : 0 < den * 2 ^ s := Nat.mul_pos hd (Nat.two_pow_pos s)
  have hquot : units / (den * 2 ^ s) = units / den / 2 ^ s := (Nat.div_div_eq_div_mul ..).symm
  have hround : units / (den * 2 ^ s) ≤ roundHalfEven units (den * 2 ^ s) ∧
      roundHalfEven units (den * 2 ^ s) ≤ units / (den * 2 ^ s) + 1 := by
    simp only [roundHalfEven]
    split
    · omega
    · split <;> omega
  have hupper : units / (den * 2 ^ s) < 2 ^ 53 := by
    rw [hquot, Nat.div_lt_iff_lt_mul (Nat.two_pow_pos s), ← pow_add]
    exact lt_of_lt_of_le Nat.lt_log2_self (Nat.pow_le_pow_right two_pos (by omega))
  refine ⟨by omega, ?_⟩
  rcases Nat.eq_zero_or_pos s with h | h
  · exact Or.inl h
  · have hlog : (units / den).log2 = 52 + s := by omega
    have hlower : 2 ^ 52 ≤ units / (den * 2 ^ s) := by
      rw [hquot, Nat.le_div_iff_mul_le (Nat.two_pow_pos s), ← pow_add, ← hlog]
      apply Nat.log2_self_le
      intro hzero
      rw [hzero, Nat.log2_zero] at hlog
      omega
    refine Or.inr ⟨by omega, ?_⟩
    rw [le_div_iff₀ (by exact_mod_cast hden)]
    exact_mod_cast (Nat.le_div_iff_mul_le hden).mp hlower

section

variable {v : ℚ} {s r : Nat} (hnear : |v - r| ≤ 1 / 2) (hgrid : s = 0 ∨ 2 ^ 52 ≤ r ∧ (2 : ℚ) ^ 52 ≤ v)

include hnear

theorem near_closest (k : Nat) : |v - r| ≤ |v - k| := by
  by_cases hk : k = r
  · rw [hk]
  · exact hnear.trans (half_le_of_near hnear hk)

include hgrid

/-- In units of the spacing, a code with at least that spacing is a whole number, and one with less is farther away. -/
theorem whole_or_farther (j : Nat) :
    (∃ k : Nat, unitsOf j = k * 2 ^ s ∧ (unitsOf j : ℚ) / 2 ^ s = k) ∨ |v - r| < |v - (unitsOf j : ℚ) / 2 ^ s| := by
  obtain ⟨s', m, rfl, hm, hs'⟩ := exists_grid j
  rw [unitsOf_grid hm.le hs']
  rcases Nat.lt_or_ge s' s with h | h
  · right
    have hv : (2 : ℚ) ^ 52 ≤ v := by
      rcases hgrid with h0 | ⟨-, h52⟩
      · omega
      · exact h52
    have hless : ((m * 2 ^ s' : Nat) : ℚ) / 2 ^ s < 2 ^ 52 := by
      rw [div_lt_iff₀ (by positivity)]
      have : m * 2 ^ s' < 2 ^ 52 * 2 ^ s := by
        calc m * 2 ^ s' < 2 ^ 53 * 2 ^ s' := Nat.mul_lt_mul_of_pos_right hm (Nat.two_pow_pos s')
          _ = 2 ^ 52 * 2 ^ (s' + 1) := by rw [pow_succ 2 s']; ring
          _ ≤ 2 ^ 52 * 2 ^ s := Nat.mul_le_mul_left _ (Nat.pow_le_pow_right two_pos h)
      exact_mod_cast this
    have hclose := near_closest hnear (2 ^ 52)
    rw [Nat.cast_pow, Nat.cast_ofNat] at hclose
    rw [abs_of_nonneg (a := v - 2 ^ 52) (by linarith)] at hclose
    rw [abs_of_pos (a := v - ((m * 2 ^ s' : Nat) : ℚ) / 2 ^ s) (by linarith)]
    linarith
  · have hwhole : m * 2 ^ s' = m * 2 ^ (s' - s) * 2 ^ s := by rw [Nat.mul_assoc, ← pow_add, Nat.sub_add_cancel h]
    refine Or.inl ⟨_, hwhole, ?_⟩
    rw [hwhole, Nat.cast_mul (m * 2 ^ (s' - s)), Nat.cast_pow 2 s, Nat.cast_ofNat]
    exact mul_div_cancel_right₀ _ (by positivity)

theorem spacings_closest (j : Nat) : |v - r| ≤ |v - (unitsOf j : ℚ) / 2 ^ s| := by
  rcases whole_or_farther hnear hgrid j with ⟨k, -, hk⟩ | h
  · rw [hk]; exact near_closest hnear k
  · exact h.le

theorem spacings_tie {j : Nat} (hj : unitsOf j ≠ r * 2 ^ s) (h : |v - (unitsOf j : ℚ) / 2 ^ s| = |v - r|) :
    |v - r| = 1 / 2 := by
  rcases whole_or_farther hnear hgrid j with ⟨k, hunits, hk⟩ | hlt
  · have hkr : k ≠ r := by
      rintro rfl
      exact hj hunits
    rw [hk] at h
    exact le_antisymm hnear (h ▸ half_le_of_near hnear hkr)
  · exact absurd h hlt.ne'

end

/-- Rounding in units of the spacing finds the nearest code. -/
theorem isNearest_nearestCode (num : Nat) {den : Nat} (hd : 0 < den) :
    IsNearest (num / den) (nearestCode num den) := by
  obtain ⟨units, hu⟩ : ∃ units, units = num <<< 1074 := ⟨_, rfl⟩
  obtain ⟨s, hs⟩ : ∃ s, s = (units / den).log2 - 52 := ⟨_, rfl⟩
  obtain ⟨r, hr⟩ : ∃ r, r = roundHalfEven units (den * 2 ^ s) := ⟨_, rfl⟩
  obtain ⟨v, hv⟩ : ∃ v : ℚ, v = (units : ℚ) / (den * 2 ^ s : Nat) := ⟨_, rfl⟩
  obtain ⟨hle, hgrid⟩ := rounded_grid units hd hs
  obtain ⟨hnear, heven⟩ := roundHalfEven_near units (Nat.mul_pos hd (Nat.two_pow_pos s))
  rw [← hr] at hle
  rw [← hr, ← hv] at hgrid hnear heven
  have hcode : nearestCode num den = s * 2 ^ 52 + r := by
    simp only [nearestCode, ← hu, ← hs, Nat.shiftLeft_eq _ s, ← hr]
    rw [Nat.shiftLeft_eq]
  have hunits : unitsOf (s * 2 ^ 52 + r) = r * 2 ^ s := unitsOf_grid hle (hgrid.imp_right And.left)
  have hself : (unitsOf (s * 2 ^ 52 + r) : ℚ) / 2 ^ s = r := by
    rw [hunits, Nat.cast_mul, Nat.cast_pow, Nat.cast_ofNat]
    exact mul_div_cancel_right₀ _ (by positivity)
  -- distances are the same in units of the spacing, but for the scale
  have hscale : (0 : ℚ) < 2 ^ s / 2 ^ 1074 := by positivity
  have hdist (j : Nat) : |(num : ℚ) / den - magnitudeOf j| = |v - (unitsOf j : ℚ) / 2 ^ s| * (2 ^ s / 2 ^ 1074) := by
    have hden : (den : ℚ) ≠ 0 := by exact_mod_cast hd.ne'
    have hnum : (units : ℚ) = num * 2 ^ 1074 := by
      simp only [hu, Nat.shiftLeft_eq, Nat.cast_mul, Nat.cast_pow, Nat.cast_ofNat]
    have hquot : (num : ℚ) / den = v * (2 ^ s / 2 ^ 1074) := by
      rw [hv, hnum]
      push_cast
      field_simp
    have hmag : magnitudeOf j = (unitsOf j : ℚ) / 2 ^ s * (2 ^ s / 2 ^ 1074) := by
      rw [magnitudeOf, div_mul_div_cancel₀ (by positivity)]
    rw [hquot, hmag, ← sub_mul, abs_mul, abs_of_pos hscale]
  rw [hcode]
  constructor
  · intro j
    rw [hdist, hdist, hself]
    exact mul_le_mul_of_nonneg_right (spacings_closest hnear hgrid j) hscale.le
  · intro j hj htie
    rw [hdist, hdist, hself] at htie
    have hne : unitsOf j ≠ r * 2 ^ s := fun h => hj (unitsOf_strictMono.injective (h.trans hunits.symm))
    have := heven (spacings_tie hnear hgrid hne (mul_right_cancel₀ hscale.ne' htie))
    omega

/-! ## decimals -/

theorem exists_isNearest {q : ℚ} (h : 0 ≤ q) : ∃ c, IsNearest q c := by
  have hq : ((q.num.toNat : Nat) : ℚ) / q.den = q := by
    have : ((q.num.toNat : Nat) : ℚ) = q.num := by exact_mod_cast Int.toNat_of_nonneg (Rat.num_nonneg.mpr h)
    rw [this]
    exact Rat.num_div_den q
  exact ⟨_, hq ▸ isNearest_nearestCode q.num.toNat q.den_pos⟩

theorem digits_bounds {n : Nat} (h : n ≠ 0) :
    10 ^ ((Nat.toDigits 10 n).length - 1) ≤ n ∧ n < 10 ^ (Nat.toDigits 10 n).length := by
  have hpos := Nat.length_toDigits_pos (b := 10) (n := n)
  refine ⟨?_, (Nat.length_toDigits_le_iff (by omega) hpos).mp le_rfl⟩
  rcases Nat.eq_zero_or_pos ((Nat.toDigits 10 n).length - 1) with h1 | h1
  · rw [h1]; omega
  · by_contra hlt
    have := (Nat.length_toDigits_le_iff (b := 10) (by omega) h1).mpr (Nat.lt_of_not_le hlt)
    omega

theorem two_pow_le {n : Nat} (h : n ≤ 1200) : (2 : ℚ) ^ n ≤ 10 ^ 400 :=
  calc (2 : ℚ) ^ n ≤ 2 ^ (3 * 400) := pow_le_pow_right₀ (by norm_num) h
    _ = (2 ^ 3) ^ 400 := pow_mul 2 3 400
    _ ≤ 10 ^ 400 := pow_le_pow_left₀ (by norm_num) (by norm_num) 400

/-- A number below 10^-400 is less than half of the smallest magnitude. -/
theorem vanishes {q : ℚ} (h : q < 10 ^ (-400 : ℤ)) : 2 * q < magnitudeOf 1 := by
  have hmag : magnitudeOf 1 = ((2 : ℚ) ^ 1074)⁻¹ := by
    rw [magnitudeOf, show unitsOf 1 = 1 from rfl, Nat.cast_one, one_div]
  have hpow : ((10 : ℚ) ^ 400)⁻¹ ≤ (2 ^ 1074 * 2)⁻¹ :=
    inv_anti₀ (by positivity) ((pow_succ (2 : ℚ) 1074) ▸ two_pow_le (by norm_num))
  rw [zpow_neg, zpow_ofNat] at h
  calc 2 * q < 2 * ((10 : ℚ) ^ 400)⁻¹ := mul_lt_mul_of_pos_left h two_pos
    _ ≤ 2 * (2 ^ 1074 * 2)⁻¹ := mul_le_mul_of_nonneg_left hpow two_pos.le
    _ = magnitudeOf 1 := by rw [hmag, mul_inv, mul_comm, mul_assoc, inv_mul_cancel₀ two_ne_zero, mul_one]

theorem overflows {q : ℚ} (h : 10 ^ (400 : ℤ) ≤ q) : magnitudeOf infinityCode ≤ q := by
  rw [zpow_ofNat] at h
  rw [magnitudeOf_infinityCode]
  exact (two_pow_le (by norm_num)).trans h

namespace Double

/-- The double nearest to a number of this sign and magnitude; past the finite magnitudes, infinity. -/
def Rounds (negative : Bool) (q : ℚ) (x : Double) : Prop := ∃ c, IsNearest q c ∧ x = ofCode negative c

theorem Rounds.unique {negative : Bool} {q : ℚ} {x y : Double} (hx : Rounds negative q x) (hy : Rounds negative q y) :
    x = y := by
  obtain ⟨a, ha, rfl⟩ := hx
  obtain ⟨b, hb, rfl⟩ := hy
  rw [ha.unique hb]

theorem rounds_ofRatio (negative : Bool) (num : Nat) {den : Nat} (hd : 0 < den) :
    Rounds negative (num / den) (ofRatio negative num den) :=
  ⟨_, isNearest_nearestCode num hd, rfl⟩

/-- A decimal gives the double nearest to it, however long its digits and however large its exponent. -/
theorem rounds_ofDecimal (negative : Bool) (digits : Nat) (exponent : Int) :
    Rounds negative (digits * 10 ^ exponent) (ofDecimal negative digits exponent) := by
  have hten : (0 : ℚ) < 10 := by norm_num
  have hq : (0 : ℚ) ≤ digits * 10 ^ exponent := by positivity
  by_cases h0 : digits = 0
  · refine ⟨0, ?_, by simp [ofDecimal, h0]⟩
    rw [h0, Nat.cast_zero, zero_mul, ← magnitudeOf_zero]
    exact isNearest_magnitudeOf 0
  obtain ⟨hlow, hhigh⟩ := digits_bounds h0
  obtain ⟨len, hlen⟩ : ∃ len, len = (Nat.toDigits 10 digits).length := ⟨_, rfl⟩
  rw [← hlen] at hlow hhigh
  simp only [ofDecimal, h0, false_or, ← hlen]
  by_cases hvanish : (len : Int) + exponent < -400
  · rw [if_pos hvanish]
    refine ⟨0, isNearest_zero hq (vanishes ?_), rfl⟩
    calc (digits : ℚ) * 10 ^ exponent < 10 ^ len * 10 ^ exponent :=
          mul_lt_mul_of_pos_right (by exact_mod_cast hhigh) (by positivity)
      _ = 10 ^ ((len : ℤ) + exponent) := by rw [zpow_add₀ hten.ne', zpow_natCast]
      _ ≤ 10 ^ (-400 : ℤ) := zpow_le_zpow_right₀ (by norm_num) hvanish.le
  by_cases hoverflow : 400 < (len : Int) + exponent
  · rw [if_neg hvanish, if_pos hoverflow]
    obtain ⟨c, hc⟩ := exists_isNearest hq
    refine ⟨c, hc, ?_⟩
    have hlarge : (10 : ℚ) ^ (400 : ℤ) ≤ digits * 10 ^ exponent := by
      have hpos : 1 ≤ len := hlen ▸ Nat.length_toDigits_pos
      calc (10 : ℚ) ^ (400 : ℤ) ≤ 10 ^ (((len - 1 : Nat) : ℤ) + exponent) :=
            zpow_le_zpow_right₀ (by norm_num) (by omega)
        _ = 10 ^ (len - 1) * 10 ^ exponent := by rw [zpow_add₀ hten.ne', zpow_natCast]
        _ ≤ digits * 10 ^ exponent := mul_le_mul_of_nonneg_right (by exact_mod_cast hlow) (by positivity)
    have hle : infinityCode ≤ c := hc.infinityCode_le (overflows hlarge)
    rw [ofCode, dif_neg (Nat.not_lt.mpr hle)]
  rw [if_neg hvanish, if_neg hoverflow]
  by_cases hwhole : 0 ≤ exponent
  · rw [if_pos hwhole]
    have := rounds_ofRatio negative (digits * 10 ^ exponent.toNat) Nat.one_pos
    rwa [Nat.cast_mul, Nat.cast_pow, Nat.cast_one, div_one, Nat.cast_ofNat, ← zpow_natCast,
      Int.toNat_of_nonneg hwhole] at this
  · rw [if_neg hwhole]
    have := rounds_ofRatio negative digits (Nat.pow_pos (show 0 < 10 by omega) : 0 < 10 ^ (-exponent).toNat)
    rwa [Nat.cast_pow, Nat.cast_ofNat, ← zpow_natCast, Int.toNat_of_nonneg (by omega), zpow_neg, div_inv_eq_mul]
      at this

end Double

end TableMigrations
