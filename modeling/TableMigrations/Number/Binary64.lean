/-
  TableMigrations.Number.Binary64 — double precision numbers, in exact natural-number arithmetic.

  The 63 bits below the sign bit, read as a number, are the *code* of a magnitude. Codes list the finite
  magnitudes in increasing order from zero, and the next code is infinity's. Every finite magnitude is a
  whole number of units of 2^-1074, and a quotient is rounded by rounding it, in units, to the spacing that
  doubles have at its size (`nearestCode`).
-/

namespace TableMigrations

/-- The code of infinity: the first one past the finite magnitudes. -/
def infinityCode : Nat := 0x7ff0000000000000

/-- A double precision number. Not-a-number carries neither sign nor payload. -/
inductive Double where
  | finite (negative : Bool) (code : Fin infinityCode)
  | infinite (negative : Bool)
  | nan
  deriving DecidableEq, Repr

def roundHalfEven (num den : Nat) : Nat :=
  let q := num / den
  let r := num % den
  if 2 * r < den then q else if den < 2 * r then q + 1 else q + q % 2

/-! ## magnitudes -/

/-- How many times the spacing of doubles has doubled, from the smallest one, at this code. -/
def spacingOf (code : Nat) : Nat := (code >>> 52) - 1

/-- The magnitude of a code in units of 2^-1074. -/
def unitsOf (code : Nat) : Nat := (code - (spacingOf code <<< 52)) <<< spacingOf code

/-- The code of the magnitude nearest to `num / den`, a tie to the even code; from `infinityCode` up it overflows. -/
def nearestCode (num den : Nat) : Nat :=
  let units := num <<< 1074
  let spacing := (units / den).log2 - 52
  (spacing <<< 52) + roundHalfEven units (den <<< spacing)

namespace Double

def ofCode (negative : Bool) (code : Nat) : Double :=
  if h : code < infinityCode then .finite negative ⟨code, h⟩ else .infinite negative

def ofRatio (negative : Bool) (num den : Nat) : Double := ofCode negative (nearestCode num den)

def zero : Double := ofCode false 0

def isFinite : Double → Bool
  | .finite .. => true
  | _ => false

/-- Equality as numbers: the two zeros agree, and not-a-number agrees with nothing. -/
def agrees : Double → Double → Bool
  | .finite s a, .finite t b => a == b && (s == t || a.val == 0)
  | .infinite s, .infinite t => s == t
  | _, _ => false

/-! ## the interchange pattern -/

def signBit : Nat := 1 <<< 63

def ofBits (bits : Nat) : Double :=
  let code := bits % signBit
  if code ≤ infinityCode then ofCode (signBit ≤ bits) code else .nan

def toBits : Double → Nat
  | .finite s c => s.toNat * signBit + c.val
  | .infinite s => s.toNat * signBit + infinityCode
  | .nan => infinityCode + (1 <<< 51)

/-! ## decimal quotients and products -/

/-- The double nearest to `± digits * 10 ^ exponent`. Magnitudes past 10^400 overflow and those below 10^-400
    vanish whatever their digits, so the powers that are computed stay small. -/
def ofDecimal (negative : Bool) (digits : Nat) (exponent : Int) : Double :=
  let top := (Nat.toDigits 10 digits).length + exponent
  if digits = 0 ∨ top < -400 then ofCode negative 0
  else if 400 < top then .infinite negative
  else if 0 ≤ exponent then ofRatio negative (digits * Nat.pow 10 exponent.toNat) 1
  else ofRatio negative digits (Nat.pow 10 (-exponent).toNat)

/-- The product of two finite doubles, rounded; with any other operand, not a number. -/
def times : Double → Double → Double
  | .finite s a, .finite t b => ofRatio (s != t) (unitsOf a * unitsOf b) (1 <<< 2148)
  | _, _ => .nan

def dividedBy : Double → Double → Double
  | .finite s a, .finite t b => if b.val = 0 then .nan else ofRatio (s != t) (unitsOf a) (unitsOf b)
  | _, _ => .nan

end Double

end TableMigrations
