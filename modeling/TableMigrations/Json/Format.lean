/-
  TableMigrations.Json.Format — JSON as a format for values.

  Maps and records are objects. A variant that carries a value is an object with one field, named for it; one that does
  not is its name as a string. A record may also be given as an array of its fields' values, and fields of other names
  are passed over.
-/
import TableMigrations.Json.Number
import TableMigrations.Json.Reader
import TableMigrations.TextFormat

namespace TableMigrations

/-- Infinities and not-a-number have no JSON number. -/
def Double.toJson : Double → Json
  | .finite s c => .number (.ofFinite s (Decimal.shortest .even c))
  | _ => .null

namespace Json

def text? : Json → Option String
  | .string body => (unescape? body).map .ofList
  | _ => none

def integer? : Json → Option Int64
  | .number n => n.toInt64?
  | _ => none

def number? : Json → Option Double
  | .number n => n.toDouble?
  | _ => none

def boolean? : Json → Option Bool
  | .bool b => some b
  | _ => none

def fields? : Json → Option (List (String × Json))
  | .object fields => fields.mapM fun f => (unescape? f.1).map fun name => (String.ofList name, f.2)
  | _ => none

def field? (fields : List (String × Json)) (name : String) : Option Json :=
  match fields.filter (·.1 == name) with
  | [f] => some f.2
  | _ => none

/-- The values of an object's fields of these names, in their order; or the items of an array of as many. -/
def record? (names : List String) : Json → Option (List Json)
  | .array items => if items.length = names.length then some items else none
  | j => j.fields?.bind fun fields => names.mapM (field? fields)

/-- The variant that a string names, or the one field of an object that has no other. -/
def variant? : Json → Option (String × Option Json)
  | .string body => (unescape? body).map fun name => (.ofList name, none)
  | .object [(name, j)] => (unescape? name).map fun name => (.ofList name, some j)
  | _ => none

def isNull : Json → Bool
  | .null => true
  | _ => false

def format : TextFormat where
  Node := Json
  write j := .ofList j.compact
  read? text := read? text.toList
  string := ofString
  int64 n := .number (.ofInt n.toInt)
  double := Double.toJson
  bool := .bool
  map := ofFields
  record := ofFields
  variant name j := ofFields [(name, j)]
  bareVariant := ofString
  string? := text?
  int64? := integer?
  double? := number?
  bool? := boolean?
  map? := fields?
  record? := record?
  variant? := variant?
  isUnit := isNull

end Json

end TableMigrations
