/-
  TableMigrations.Number.Notation — how numbers are written in migration lines, and read from them.

  Integers are an optional sign and ASCII digits. Doubles are digits with a point, with an optional sign and an
  optional exponent on reading; they are written positionally, never with an exponent.
-/
import TableMigrations.Number.Decimal

namespace TableMigrations

inductive NumberFault where
  | empty
  | invalidDigit
  | tooLarge
  | tooSmall
  | invalidFloat
  deriving DecidableEq, Repr

def NumberFault.message : NumberFault → String
  | .empty => "cannot parse integer from empty string"
  | .invalidDigit => "invalid digit found in string"
  | .tooLarge => "number too large to fit in target type"
  | .tooSmall => "number too small to fit in target type"
  | .invalidFloat => "invalid float literal"

/-! ## integers -/

def digitsValue (ds : List Char) : Nat := Nat.ofDigitChars 10 ds 0

def int64Half : Nat := 1 <<< 63

/-- Extends `acc` by the digits of the text, away from zero. At each character a bad digit is seen before overflow. -/
def readMagnitude (negative : Bool) (acc : Int) : List Char → Except NumberFault Int
  | [] => .ok acc
  | c :: cs =>
    if !c.isDigit then .error .invalidDigit
    else
      let digit : Int := (c.toNat - '0'.toNat : Nat)
      let next := if negative then 10 * acc - digit else 10 * acc + digit
      if int64Half ≤ next then .error .tooLarge
      else if next < -int64Half then .error .tooSmall
      else readMagnitude negative next cs

def readInteger : List Char → Except NumberFault Int64
  | [] => .error .empty
  | ['+'] | ['-'] => .error .invalidDigit
  | '-' :: ds => (readMagnitude true 0 ds).map Int64.ofInt
  | '+' :: ds => (readMagnitude false 0 ds).map Int64.ofInt
  | ds => (readMagnitude false 0 ds).map Int64.ofInt

/-! ## doubles -/

def splitSign : List Char → Bool × List Char
  | '-' :: r => (true, r)
  | '+' :: r => (false, r)
  | r => (false, r)

def splitFraction : List Char → List Char × List Char
  | '.' :: r => (r.takeWhile Char.isDigit, r.dropWhile Char.isDigit)
  | r => ([], r)

/-- The exponent that fills the rest of a number: zero for no rest, `none` for a malformed one. -/
def readExponent : List Char → Option Int
  | [] => some 0
  | c :: r =>
    if c == 'e' || c == 'E' then
      let (negative, ds) := splitSign r
      if ds ≠ [] ∧ ds.all Char.isDigit then
        some (if negative then -(digitsValue ds : Int) else digitsValue ds)
      else none
    else none

/-- Optional sign, digits on at least one side of an optional point, optional exponent; rounded to nearest. -/
def readDouble (text : List Char) : Except NumberFault Double :=
  let (negative, body) := splitSign text
  let whole := body.takeWhile Char.isDigit
  let (fraction, rest) := splitFraction (body.dropWhile Char.isDigit)
  match readExponent rest with
  | some e =>
    if whole = [] ∧ fraction = [] then .error .invalidFloat
    else .ok (.ofDecimal negative (digitsValue (whole ++ fraction)) (e - fraction.length))
  | none => .error .invalidFloat

namespace Double

def signed (negative : Bool) (text : List Char) : List Char := if negative then '-' :: text else text

/-- The shortest digits that read back, in full; a whole number has no point. -/
def plainText : Double → List Char
  | .finite s c =>
    let (whole, fraction) := (Decimal.shortest .up c).positional
    signed s (if fraction = [] then whole else whole ++ '.' :: fraction)
  | .infinite s => signed s ['i', 'n', 'f']
  | .nan => ['N', 'a', 'N']

/-- The plain text, with a point also in whole numbers, so that it reads as a double. -/
def lineText (x : Double) : List Char :=
  let text := x.plainText
  if x.isFinite && !text.contains '.' then text ++ ['.', '0'] else text

end Double

end TableMigrations
