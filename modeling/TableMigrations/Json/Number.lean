/-
  TableMigrations.Json.Number — what written numbers mean, and how numbers are written.

  An integer is a number without fraction and exponent. A double is read in two roundings: the leading digits, as far
  as they fit 64 bits, are rounded to a double, which is then scaled by a power of ten that is a double itself.
-/
import TableMigrations.Json.Syntax
import TableMigrations.Number.Notation

namespace TableMigrations.Json.Number

/-! ## integers -/

def ofInt (n : Int) : Number := ⟨n < 0, Nat.toDigits 10 n.natAbs, [], none⟩

/-- The integer of 64 bits that is written; a negative zero is none. -/
def toInt64? (n : Number) : Option Int64 :=
  if n.fraction ≠ [] ∨ n.exponent.isSome then none
  else
    let m := digitsValue n.whole
    if n.negative then (if 0 < m ∧ m ≤ int64Half then some (Int64.ofInt (-m)) else none)
    else (if m < int64Half then some (Int64.ofInt m) else none)

/-! ## reading doubles -/

/-- Extends a 64-bit significand by digits until the next does not fit; with it, how many digits fitted. -/
def gather (significand : Nat) : List Char → Nat × Nat
  | [] => (significand, 0)
  | c :: cs =>
    let next := 10 * significand + (c.toNat - '0'.toNat)
    if UInt64.size ≤ next then (significand, 0)
    else
      let (s, n) := gather next cs
      (s, n + 1)

def powerOfTen (n : Nat) : Double := .ofDecimal false 1 n

/-- A significand scaled by a power of ten; `none` if the result is out of range. Scaling down takes a second step
    where one power of ten is too large for a double. -/
def scale (significand : Nat) (exponent : Int) : Option Double :=
  let x := Double.ofRatio false significand 1
  if 308 < exponent then (if significand = 0 then some x else none)
  else if 0 ≤ exponent then
    let y := x.times (powerOfTen exponent.toNat)
    if y.isFinite then some y else none
  else if -308 ≤ exponent then some (x.dividedBy (powerOfTen (-exponent).toNat))
  else if -616 ≤ exponent then some ((x.dividedBy (powerOfTen 308)).dividedBy (powerOfTen (-exponent - 308).toNat))
  else some .zero

def exponentValue (n : Number) : Int :=
  match n.exponent with
  | none => 0
  | some (.minus, ds) => -(digitsValue ds)
  | some (_, ds) => digitsValue ds

def toDouble? (n : Number) : Option Double :=
  let (s, taken) := gather 0 n.whole
  let skipped := n.whole.length - taken
  let (s, more) := gather s n.fraction
  match scale s (skipped - more + n.exponentValue), n.negative with
  | some (.finite _ c), negative => some (.finite negative c)
  | _, _ => none

/-! ## writing doubles -/

/-- Numbers from 1e-5 up to 1e16 are written in full, with at least one digit after the point; others with one digit
    before it and an exponent with its sign. -/
def ofFinite (negative : Bool) (d : Decimal) : Number :=
  let (ds, point) := d.significant
  if ds = [] then ⟨negative, ['0'], ['0'], none⟩
  else if -5 < point ∧ point ≤ 16 then
    let (whole, fraction) := d.positional
    ⟨negative, whole, if fraction = [] then ['0'] else fraction, none⟩
  else
    let e := point - 1
    ⟨negative, ds.take 1, ds.drop 1, some (if e < 0 then .minus else .plus, Nat.toDigits 10 e.natAbs)⟩

end TableMigrations.Json.Number
