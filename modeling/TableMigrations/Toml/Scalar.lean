/-
  TableMigrations.Toml.Scalar — strings, numbers, dates and keys of TOML.

  Each reader takes a text and gives what it read with the rest of the text, or nothing if the text does not start so.
-/
import TableMigrations.Number.Notation
import TableMigrations.Text.Hex
import TableMigrations.Toml.Document

namespace TableMigrations.Toml

def isBlank (c : Char) : Bool := c == ' ' || c == '\t'

def skipBlank (s : List Char) : List Char := s.dropWhile isBlank

def isPlain (c : Char) : Bool := c == '\t' || (0x20 ≤ c.toNat && c.toNat != 0x7F)

def newline? : List Char → Option (List Char)
  | '\n' :: r => some r
  | '\r' :: '\n' :: r => some r
  | _ => none

/-! ## strings -/

def simpleEscape? (c : Char) : Option Char :=
  match c with
  | 'b' => some '\x08'
  | 't' => some '\t'
  | 'n' => some '\n'
  | 'f' => some '\x0c'
  | 'r' => some '\r'
  | '"' => some '"'
  | '\\' => some '\\'
  | _ => none

def readEscape : List Char → Option (Char × List Char)
  | 'u' :: a :: b :: c :: d :: r => do return (← Text.charOf? (← Text.hexNumber? [a, b, c, d]), r)
  | 'U' :: a :: b :: c :: d :: e :: f :: g :: h :: r => do
    return (← Text.charOf? (← Text.hexNumber? [a, b, c, d, e, f, g, h]), r)
  | c :: r => (simpleEscape? c).map (·, r)
  | [] => none

def readBasic : Nat → List Char → Option (List Char × List Char)
  | 0, _ => none
  | fuel + 1, s =>
    match s with
    | '"' :: r => some ([], r)
    | '\\' :: r => do
      let (c, r) ← readEscape r
      let (text, rest) ← readBasic fuel r
      return (c :: text, rest)
    | c :: r => if isPlain c then (readBasic fuel r).map fun (text, rest) => (c :: text, rest) else none
    | [] => none

def readLiteral : List Char → Option (List Char × List Char)
  | '\'' :: r => some ([], r)
  | c :: r => if isPlain c then (readLiteral r).map fun (text, rest) => (c :: text, rest) else none
  | [] => none

/-- The closing of a string on several lines, from a run of quotes: three close it, and up to two before them belong
    to the text. -/
def closing? (quote : Char) (s : List Char) : Option (Option (List Char × List Char)) :=
  let run := s.takeWhile (· == quote)
  if run.length < 3 then none
  else if 5 < run.length then some none
  else some (some (run.drop 3, s.dropWhile (· == quote)))

/-- The text of a string on several lines, from after its opening; its line ends are line feeds. -/
def readMultiline (quote : Char) : Nat → List Char → Option (List Char × List Char)
  | 0, _ => none
  | fuel + 1, s =>
    match closing? quote s with
    | some closed => closed
    | none =>
      match newline? s with
      | some r => (readMultiline quote fuel r).map fun (text, rest) => ('\n' :: text, rest)
      | none =>
        match s with
        | [] => none
        | c :: r =>
          if c == '\\' && quote == '"' then
            match newline? (skipBlank r) with
            | some r => readMultiline quote fuel (skipBreaks r.length r)
            | none => do
              let (c, r) ← readEscape r
              let (text, rest) ← readMultiline quote fuel r
              return (c :: text, rest)
          else if isPlain c then (readMultiline quote fuel r).map fun (text, rest) => (c :: text, rest)
          else none
where
  /-- The rest after blanks and line ends. -/
  skipBreaks : Nat → List Char → List Char
    | 0, s => s
    | fuel + 1, s =>
      match newline? (skipBlank s) with
      | some r => skipBreaks fuel r
      | none => skipBlank s

/-- A string's text; a line end right after the opening of a string on several lines is not part of it. -/
def readString (s : List Char) : Option (List Char × List Char) :=
  match s with
  | '"' :: '"' :: '"' :: r => readMultiline '"' (r.length + 1) ((newline? r).getD r)
  | '\'' :: '\'' :: '\'' :: r => readMultiline '\'' (r.length + 1) ((newline? r).getD r)
  | '"' :: r => readBasic (r.length + 1) r
  | '\'' :: r => readLiteral r
  | _ => none

/-! ## keys -/

def isBare (c : Char) : Bool := c.isAlphanum || c == '-' || c == '_'

def readKeyPart (s : List Char) : Option (String × List Char) :=
  match s with
  | '"' :: r => (readBasic (r.length + 1) r).map fun (text, rest) => (.ofList text, rest)
  | '\'' :: r => (readLiteral r).map fun (text, rest) => (.ofList text, rest)
  | s =>
    match s.takeWhile isBare with
    | [] => none
    | bare => some (.ofList bare, s.dropWhile isBare)

def readKeyParts : Nat → List Char → Option (List String × List Char)
  | 0, _ => none
  | fuel + 1, s => do
    let (part, r) ← readKeyPart (skipBlank s)
    match skipBlank r with
    | '.' :: r => (readKeyParts fuel r).map fun (parts, rest) => (part :: parts, rest)
    | r => some ([part], r)

/-- How deep a document nests: the parts of a key, and arrays and inline tables in each other. -/
def maxNesting : Nat := 79

def readKey (s : List Char) : Option (List String × List Char) :=
  match readKeyParts (s.length + 1) s with
  | some (parts, rest) => if parts.length ≤ maxNesting then some (parts, rest) else none
  | none => none

/-! ## numbers -/

def readGrouped (isDigit : Char → Bool) : List Char → Option (List Char × List Char)
  | c :: r =>
    if isDigit c then
      match r with
      | '_' :: r =>
        match readGrouped isDigit r with
        | some (ds, rest) => some (c :: ds, rest)
        | none => none
      | r =>
        match readGrouped isDigit r with
        | some (ds, rest) => some (c :: ds, rest)
        | none => some ([c], r)
    else none
  | [] => none

/-- Decimal digits that start with a zero only if there is no other. -/
def readDecimal : List Char → Option (List Char × List Char)
  | '0' :: r => some (['0'], r)
  | s => readGrouped Char.isDigit s

def radixOf? : Char → Option Nat
  | 'x' => some 16
  | 'o' => some 8
  | 'b' => some 2
  | _ => none

/-- An integer of 64 bits: signed decimal, or hexadecimal, octal or binary without a sign. -/
def readInteger (s : List Char) : Option (Int × List Char) := do
  let (n, rest) ← match s with
    | '0' :: c :: r => match radixOf? c with
      | some radix =>
        let (ds, rest) ← readGrouped (fun c => (Text.hexValue? c).any (· < radix)) r
        some ((ds.foldl (fun acc c => radix * acc + ((Text.hexValue? c).getD 0 : Int)) 0 : Int), rest)
      | none => some (0, c :: r)
    | s => do
      let (negative, r) := splitSign s
      let (ds, rest) ← readDecimal r
      some (if negative then -(digitsValue ds : Int) else digitsValue ds, rest)
  if -int64Half ≤ n ∧ n < int64Half then some (n, rest) else none

/-- The rest after a number with a fraction or an exponent or both; one that overflows upwards is none. -/
def readFloat (s : List Char) : Option (List Char) := do
  let (negative, r) := splitSign s
  match r with
  | 'i' :: 'n' :: 'f' :: r => some r
  | 'n' :: 'a' :: 'n' :: r => some r
  | r =>
    let (whole, r) ← readDecimal r
    let (fraction, r) ← match r with
      | '.' :: r => readGrouped Char.isDigit r
      | r => some ([], r)
    let (exponent, r) ← match r with
      | c :: r =>
        if c == 'e' || c == 'E' then
          let (negative, r) := splitSign r
          (readGrouped Char.isDigit r).map fun (ds, rest) =>
            (some (if negative then -(digitsValue ds : Int) else digitsValue ds), rest)
        else some (none, c :: r)
      | [] => some (none, [])
    if fraction = [] ∧ exponent.isNone then none
    else if negative = false ∧
        (Double.ofDecimal false (digitsValue (whole ++ fraction)) (exponent.getD 0 - fraction.length)).isFinite = false
      then none
    else some r

/-! ## dates and times -/

def readTwo (low high : Nat) : List Char → Option (Nat × List Char)
  | a :: b :: r =>
    if a.isDigit && b.isDigit then
      let n := digitsValue [a, b]
      if low ≤ n ∧ n ≤ high then some (n, r) else none
    else none
  | _ => none

def skip (c : Char) : List Char → Option (List Char)
  | d :: r => if d == c then some r else none
  | [] => none

def daysIn (year month : Nat) : Nat :=
  if month = 2 then (if year % 4 = 0 ∧ (year % 100 ≠ 0 ∨ year % 400 = 0) then 29 else 28)
  else if month = 4 ∨ month = 6 ∨ month = 9 ∨ month = 11 then 30 else 31

def readDate (s : List Char) : Option (List Char) := do
  let year := s.take 4
  if year.length = 4 ∧ year.all Char.isDigit then
    let (month, r) ← readTwo 1 12 (← skip '-' (s.drop 4))
    let (day, r) ← readTwo 1 31 (← skip '-' r)
    if day ≤ daysIn (digitsValue year) month then some r else none
  else none

def readTime (s : List Char) : Option (List Char) := do
  let (_, r) ← readTwo 0 23 s
  let (_, r) ← readTwo 0 59 (← skip ':' r)
  let (_, r) ← readTwo 0 60 (← skip ':' r)
  match r with
  | '.' :: c :: r => if c.isDigit then some (r.dropWhile Char.isDigit) else none
  | '.' :: [] => none
  | r => some r

def readOffset (s : List Char) : Option (List Char) := do
  match s with
  | 'Z' :: r | 'z' :: r => some r
  | '+' :: r | '-' :: r => do
    let (_, r) ← readTwo 0 23 r
    let (_, r) ← readTwo 0 59 (← skip ':' r)
    some r
  | _ => none

def readDateTime (s : List Char) : Option (List Char) :=
  match readDate s with
  | none => readTime s
  | some r =>
    match r with
    | c :: t =>
      if c == 'T' || c == 't' || c == ' ' then
        match readTime t with
        | some r => some ((readOffset r).getD r)
        | none => some (c :: t)
      else some (c :: t)
    | [] => some []

end TableMigrations.Toml
