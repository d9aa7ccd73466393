/-
  TableMigrations.Json.Text — strings between quotes: `escape` writes what stands between them, `unescape?` reads it.

  Quotes, backslashes and control characters are escaped in writing, and nothing else. A character beyond the basic
  plane may be read from the escapes of its two surrogates; half of such a pair is no character.
-/
import TableMigrations.Text.Hex

namespace TableMigrations.Json

def hexDigit (n : Nat) : Char := Nat.digitChar (n % 16)

def escapeChar (c : Char) : List Char :=
  if c = '"' then ['\\', '"']
  else if c = '\\' then ['\\', '\\']
  else if c = '\x08' then ['\\', 'b']
  else if c = '\x0c' then ['\\', 'f']
  else if c = '\n' then ['\\', 'n']
  else if c = '\r' then ['\\', 'r']
  else if c = '\t' then ['\\', 't']
  else if c.toNat < 0x20 then ['\\', 'u', '0', '0', hexDigit (c.toNat / 16), hexDigit c.toNat]
  else [c]

def escape (s : List Char) : List Char := s.flatMap escapeChar

/-! ## reading -/

def simpleEscape? (c : Char) : Option Char :=
  match c with
  | '"' => some '"'
  | '\\' => some '\\'
  | '/' => some '/'
  | 'b' => some '\x08'
  | 'f' => some '\x0c'
  | 'n' => some '\n'
  | 'r' => some '\r'
  | 't' => some '\t'
  | _ => none

/-- What a body between quotes says; `none` if an escape in it names no character. -/
def unescape? : List Char → Option (List Char)
  | [] => some []
  | '\\' :: 'u' :: a :: b :: c :: d :: r =>
    match Text.hexNumber? [a, b, c, d] with
    | none => none
    | some high =>
      if 0xD800 ≤ high ∧ high < 0xDC00 then
        match r with
        | '\\' :: 'u' :: e :: f :: g :: h :: r =>
          match Text.hexNumber? [e, f, g, h] with
          | none => none
          | some low =>
            if 0xDC00 ≤ low ∧ low < 0xE000 then do
              let c ← Text.charOf? (0x10000 + (high - 0xD800) * 0x400 + (low - 0xDC00))
              return c :: (← unescape? r)
            else none
        | _ => none
      else do
        let c ← Text.charOf? high
        return c :: (← unescape? r)
  | '\\' :: c :: r => do
    let c ← simpleEscape? c
    return c :: (← unescape? r)
  | c :: r => (unescape? r).map (c :: ·)

end TableMigrations.Json
