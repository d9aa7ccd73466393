/-
  TableMigrations.Toml.Reader — the tables of a TOML text.
-/
import TableMigrations.Toml.Scalar

namespace TableMigrations.Toml

def skipComment (s : List Char) : List Char := s.dropWhile isPlain

def skipBetween : Nat → List Char → List Char
  | 0, s => s
  | fuel + 1, s =>
    match skipBlank s with
    | '#' :: r => skipBetween fuel (skipComment r)
    | s =>
      match newline? s with
      | some r => skipBetween fuel r
      | none => s

def readScalar (s : List Char) : Option (Toml × List Char) :=
  match s with
  | '"' :: _ | '\'' :: _ => (readString s).map fun (text, rest) => (.string (.ofList text), rest)
  | 't' :: 'r' :: 'u' :: 'e' :: r => some (.scalar, r)
  | 'f' :: 'a' :: 'l' :: 's' :: 'e' :: r => some (.scalar, r)
  | s =>
    match readDateTime s with
    | some r => some (.scalar, r)
    | none =>
      match readFloat s with
      | some r => some (.scalar, r)
      | none => (readInteger s).map fun (n, rest) => (.integer n, rest)

mutual

/-- A value; `depth` is how deep it may still nest. -/
def readValue : Nat → Nat → List Char → Option (Toml × List Char)
  | 0, _, _ => none
  | fuel + 1, depth, s =>
    match s with
    | '[' :: r => if depth = 0 then none else (readItems fuel (depth - 1) r).map fun (items, rest) => (.array items, rest)
    | '\x7b' :: r =>
      if depth = 0 then none
      else match skipBlank r with
        | '\x7d' :: r => some (.table .inline [], r)
        | r => do
          let (pairs, rest) ← readPairs fuel (depth - 1) r
          return (.table .inline (← assignAll [] pairs), rest)
    | s => readScalar s

/-- The items of an array up to its end; a comma may follow the last. -/
def readItems : Nat → Nat → List Char → Option (List Toml × List Char)
  | 0, _, _ => none
  | fuel + 1, depth, s =>
    match skipBetween s.length s with
    | ']' :: r => some ([], r)
    | s =>
      match readValue fuel depth s with
      | none => none
      | some (v, r) =>
        match skipBetween r.length r with
        | ',' :: r => (readItems fuel depth r).map fun (items, rest) => (v :: items, rest)
        | ']' :: r => some ([v], r)
        | _ => none

/-- The pairs of an inline table up to its end, of which there is one; all on one line. -/
def readPairs : Nat → Nat → List Char → Option (List (List String × Toml) × List Char)
  | 0, _, _ => none
  | fuel + 1, depth, s =>
    match readKey s with
    | some (key, '=' :: r) =>
      match readValue fuel depth (skipBlank r) with
      | none => none
      | some (v, r) =>
        match skipBlank r with
        | ',' :: r => (readPairs fuel depth r).map fun (pairs, rest) => ((key, v) :: pairs, rest)
        | '\x7d' :: r => some ([(key, v)], r)
        | _ => none
    | _ => none

end

/-! ## documents -/

/-- The rest after what may stand at the end of a line: blanks, a comment, and the line's end or the text's. -/
def endOfLine (s : List Char) : Option (List Char) :=
  let s := match skipBlank s with
    | '#' :: r => skipComment r
    | s => s
  match s with
  | [] => some []
  | s => newline? s

def readHeader (s : List Char) : Option (Section × List Char) :=
  match s with
  | '[' :: r =>
    match readKey r with
    | some (key, ']' :: ']' :: r) => some (⟨key, true, []⟩, r)
    | _ => none
  | r =>
    match readKey r with
    | some (key, ']' :: r) => some (⟨key, false, []⟩, r)
    | _ => none

def readAssignment (s : List Char) : Option ((List String × Toml) × List Char) :=
  match readKey s with
  | some (key, '=' :: r) => (readValue (2 * r.length + 2) maxNesting (skipBlank r)).map fun (v, rest) => ((key, v), rest)
  | _ => none

def readSections : Nat → Section → List Char → Option (List Section)
  | 0, _, _ => none
  | fuel + 1, now, s =>
    match skipBlank s with
    | [] => some [now]
    | '[' :: r => do
      let (next, r) ← readHeader r
      return now :: (← readSections fuel next (← endOfLine r))
    | s =>
      match endOfLine s with
      | some r => readSections fuel now r
      | none => do
        let (a, r) ← readAssignment s
        readSections fuel { now with assignments := now.assignments ++ [a] } (← endOfLine r)

/-- The root table of a text; a byte order mark may stand before it. -/
def read? (text : String) : Option Entries := do
  let s := match text.toList with
    | '\ufeff' :: r => r
    | s => s
  ofSections (← readSections (s.length + 1) ⟨[], false, []⟩ s)

end TableMigrations.Toml
