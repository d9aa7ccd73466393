/-
  TableMigrations.Json.Reader — the tree of a JSON text.

  Each reader takes a text and gives a tree with the rest of the text. A value takes at least one character, so the
  length of the text bounds the depth of its nesting.
-/
import TableMigrations.Json.Syntax

namespace TableMigrations.Json

def isBlank (c : Char) : Bool := c == ' ' || c == '\n' || c == '\t' || c == '\r'

def skipBlank (s : List Char) : List Char := s.dropWhile isBlank

/-! ## scalars -/

/-- A string's body up to its closing quote. Escapes must be well formed; control characters must be escaped. -/
def readBody : List Char → Option (List Char × List Char)
  | [] => none
  | '"' :: r => some ([], r)
  | '\\' :: 'u' :: a :: b :: c :: d :: r =>
    if (Text.hexNumber? [a, b, c, d]).isSome then
      (readBody r).map fun (body, rest) => ('\\' :: 'u' :: a :: b :: c :: d :: body, rest)
    else none
  | '\\' :: c :: r =>
    if (simpleEscape? c).isSome then (readBody r).map fun (body, rest) => ('\\' :: c :: body, rest) else none
  | c :: r => if c.toNat < 0x20 then none else (readBody r).map fun (body, rest) => (c :: body, rest)

def readDigits (s : List Char) : Option (List Char × List Char) :=
  match s.takeWhile Char.isDigit with
  | [] => none
  | ds => some (ds, s.dropWhile Char.isDigit)

def readWhole : List Char → Option (List Char × List Char)
  | '0' :: c :: r => if c.isDigit then none else some (['0'], c :: r)
  | s => readDigits s

def readFraction : List Char → Option (List Char × List Char)
  | '.' :: r => readDigits r
  | s => some ([], s)

def readExponentSign : List Char → ExponentSign × List Char
  | '+' :: r => (.plus, r)
  | '-' :: r => (.minus, r)
  | s => (.absent, s)

def readExponent : List Char → Option (Option (ExponentSign × List Char) × List Char)
  | c :: r =>
    if c == 'e' || c == 'E' then
      let (sign, r) := readExponentSign r
      (readDigits r).map fun (ds, rest) => (some (sign, ds), rest)
    else some (none, c :: r)
  | [] => some (none, [])

def readNumber (s : List Char) : Option (Number × List Char) := do
  let (negative, s) := match s with
    | '-' :: r => (true, r)
    | s => (false, s)
  let (whole, s) ← readWhole s
  let (fraction, s) ← readFraction s
  let (exponent, s) ← readExponent s
  return (⟨negative, whole, fraction, exponent⟩, s)

/-! ## values -/

mutual

def readValue : Nat → List Char → Option (Json × List Char)
  | 0, _ => none
  | fuel + 1, s =>
    match s with
    | 'n' :: 'u' :: 'l' :: 'l' :: r => some (.null, r)
    | 't' :: 'r' :: 'u' :: 'e' :: r => some (.bool true, r)
    | 'f' :: 'a' :: 'l' :: 's' :: 'e' :: r => some (.bool false, r)
    | '"' :: r => (readBody r).map fun (body, rest) => (.string body, rest)
    | '[' :: r =>
      match skipBlank r with
      | ']' :: r => some (.array [], r)
      | r => (readItems fuel r).map fun (items, rest) => (.array items, rest)
    | '\x7b' :: r =>
      match skipBlank r with
      | '\x7d' :: r => some (.object [], r)
      | r => (readFields fuel r).map fun (fields, rest) => (.object fields, rest)
    | s => (readNumber s).map fun (n, rest) => (.number n, rest)

def readItems : Nat → List Char → Option (List Json × List Char)
  | 0, _ => none
  | fuel + 1, s =>
    match readValue fuel (skipBlank s) with
    | none => none
    | some (j, r) =>
      match skipBlank r with
      | ']' :: r => some ([j], r)
      | ',' :: r => (readItems fuel r).map fun (items, rest) => (j :: items, rest)
      | _ => none

def readFields : Nat → List Char → Option (List (List Char × Json) × List Char)
  | 0, _ => none
  | fuel + 1, s =>
    match skipBlank s with
    | '"' :: r =>
      match readBody r with
      | none => none
      | some (name, r) =>
        match skipBlank r with
        | ':' :: r =>
          match readValue fuel (skipBlank r) with
          | none => none
          | some (j, r) =>
            match skipBlank r with
            | '\x7d' :: r => some ([(name, j)], r)
            | ',' :: r => (readFields fuel r).map fun (fields, rest) => ((name, j) :: fields, rest)
            | _ => none
        | _ => none
    | _ => none

end

def read? (s : List Char) : Option Json :=
  match readValue (2 * s.length + 1) (skipBlank s) with
  | some (j, rest) => if skipBlank rest = [] then some j else none
  | none => none

end TableMigrations.Json
