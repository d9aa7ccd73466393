/-
  TableMigrations.Json.Syntax — JSON texts as trees, and how trees are printed.

  A tree keeps numbers and strings as they are written: the number's parts, the string's body with its escapes. What
  they mean is a question of its own, and may have no answer for a part of a text that nobody looks at.
-/
import TableMigrations.Json.Text

namespace TableMigrations

namespace Json

inductive ExponentSign where
  | absent
  | plus
  | minus
  deriving DecidableEq, Repr

def ExponentSign.text : ExponentSign → List Char
  | .absent => []
  | .plus => ['+']
  | .minus => ['-']

/-- A number as written: no fraction is an empty one. -/
structure Number where
  negative : Bool
  whole : List Char
  fraction : List Char
  exponent : Option (ExponentSign × List Char)
  deriving DecidableEq, Repr

def Number.text (n : Number) : List Char :=
  (if n.negative then ['-'] else []) ++ n.whole ++ (if n.fraction = [] then [] else '.' :: n.fraction) ++
    match n.exponent with
    | none => []
    | some (sign, digits) => 'e' :: sign.text ++ digits

end Json

inductive Json where
  | null
  | bool (b : Bool)
  | number (n : Json.Number)
  | string (body : List Char)
  | array (items : List Json)
  | object (fields : List (List Char × Json))

namespace Json

def quoted (body : List Char) : List Char := '"' :: body ++ ['"']

def ofString (s : String) : Json := .string (escape s.toList)

def ofFields (fields : List (String × Json)) : Json := .object (fields.map fun f => (escape f.1.toList, f.2))

/-! ## printing on one line -/

mutual

def compact : Json → List Char
  | .null => ['n', 'u', 'l', 'l']
  | .bool true => ['t', 'r', 'u', 'e']
  | .bool false => ['f', 'a', 'l', 's', 'e']
  | .number n => n.text
  | .string body => quoted body
  | .array items => '[' :: compactItems items ++ [']']
  | .object fields => '\x7b' :: compactFields fields ++ ['\x7d']

def compactItems : List Json → List Char
  | [] => []
  | [j] => compact j
  | j :: k :: r => compact j ++ ',' :: compactItems (k :: r)

def compactFields : List (List Char × Json) → List Char
  | [] => []
  | [(name, j)] => quoted name ++ ':' :: compact j
  | (name, j) :: f :: r => quoted name ++ ':' :: compact j ++ ',' :: compactFields (f :: r)

end

/-! ## printing one part a line -/

def newline (depth : Nat) : List Char := '\n' :: List.replicate (2 * depth) ' '

mutual

/-- Items and fields stand on lines of their own; an empty array or object is closed at once. -/
def pretty (depth : Nat) : Json → List Char
  | .null => ['n', 'u', 'l', 'l']
  | .bool true => ['t', 'r', 'u', 'e']
  | .bool false => ['f', 'a', 'l', 's', 'e']
  | .number n => n.text
  | .string body => quoted body
  | .array [] => ['[', ']']
  | .object [] => ['\x7b', '\x7d']
  | .array (j :: r) => '[' :: prettyItems (depth + 1) (j :: r) ++ newline depth ++ [']']
  | .object (f :: r) => '\x7b' :: prettyFields (depth + 1) (f :: r) ++ newline depth ++ ['\x7d']

def prettyItems (depth : Nat) : List Json → List Char
  | [] => []
  | [j] => newline depth ++ pretty depth j
  | j :: k :: r => newline depth ++ pretty depth j ++ ',' :: prettyItems depth (k :: r)

def prettyFields (depth : Nat) : List (List Char × Json) → List Char
  | [] => []
  | [(name, j)] => newline depth ++ quoted name ++ ':' :: ' ' :: pretty depth j
  | (name, j) :: f :: r =>
    newline depth ++ quoted name ++ ':' :: ' ' :: pretty depth j ++ ',' :: prettyFields depth (f :: r)

end

end Json

end TableMigrations
