/-
  TableMigrations.Number.Decimal — decimal texts of numbers, and the fewest digits that name a double.

  A finite magnitude is a whole number of units of 2^-1074, hence a whole number of units of 10^-1074: its exact
  decimal expansion ends. Its leading 1, 2, … 17 digits and their successors are tried in turn, and the first
  that reads back names the double (`shortest`); of two on one grid the nearer does, and which way an exact tie
  goes is the format's choice. The layouts follow: positional, and with an exponent.
-/
import TableMigrations.Number.Binary64

namespace TableMigrations

/-- The number `digits * 10 ^ exponent`. -/
structure Decimal where
  digits : Nat
  exponent : Int
  deriving DecidableEq, Repr

inductive Tie where
  | up
  | even
  deriving DecidableEq, Repr

namespace Decimal

def ofCode (code : Nat) : Decimal := ⟨unitsOf code * Nat.pow 5 1074, -1074⟩

def names (d : Decimal) (code : Nat) : Bool :=
  match Double.ofDecimal false d.digits d.exponent with
  | .finite _ c => c.val == code
  | _ => false

/-- Of the two neighbours of `exact` on the grid of its leading `n` digits, the one that names `code`. -/
def onGrid (tie : Tie) (exact : Decimal) (code n : Nat) : Option Decimal :=
  let dropped := (Nat.toDigits 10 exact.digits).length - n
  let unit := Nat.pow 10 dropped
  let low := exact.digits / unit
  let rest := exact.digits % unit
  let below : Decimal := ⟨low, exact.exponent + dropped⟩
  let above : Decimal := ⟨low + 1, exact.exponent + dropped⟩
  match below.names code, above.names code with
  | false, false => none
  | true, false => some below
  | false, true => some above
  | true, true =>
    if 2 * rest < unit then some below
    else if unit < 2 * rest then some above
    else match tie with
      | .up => some above
      | .even => some (if low % 2 = 0 then below else above)

/-- The shortest decimal that names the magnitude, the nearest of those of its length. -/
def shortest (tie : Tie) (code : Nat) : Decimal :=
  if code = 0 then ⟨0, 0⟩ else
  let exact := ofCode code
  ((List.range 17).findSome? fun n => onGrid tie exact code (n + 1)).getD exact

/-! ## layouts -/

/-- Significant digits without trailing zeros, and the place of the point: the value is `0.digits * 10 ^ point`. -/
def significant (d : Decimal) : List Char × Int :=
  let ds := Nat.toDigits 10 d.digits
  ((ds.reverse.dropWhile (· == '0')).reverse, ds.length + d.exponent)

def positional (d : Decimal) : List Char × List Char :=
  let (ds, point) := d.significant
  if point ≤ 0 then (['0'], List.replicate (-point).toNat '0' ++ ds)
  else (ds.take point.toNat ++ List.replicate (point.toNat - ds.length) '0', ds.drop point.toNat)

end Decimal

def integerText (n : Int) : List Char :=
  if n < 0 then '-' :: Nat.toDigits 10 n.natAbs else Nat.toDigits 10 n.natAbs

end TableMigrations
