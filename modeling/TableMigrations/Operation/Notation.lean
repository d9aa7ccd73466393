/-
  TableMigrations.Operation.Notation — the written form of operations: one line of fields apart by single spaces.

  The first field is the opcode and the second the table. Row operations go on with the row's two keys and then
  its properties; an operation on every row has its properties at once; deletion has two keys, or a star for the
  whole table. A property is `name|value|TYPE`.
-/
import TableMigrations.Operation

namespace TableMigrations

/-! ## values -/

/-- The type that a property is tagged with. A null property is read and left out. -/
inductive Tag where
  | string
  | number
  | bool
  | null
  deriving DecidableEq, Repr

namespace Tag

def text : Tag → String
  | .string => "STRING"
  | .number => "NUMBER"
  | .bool => "BOOL"
  | .null => "NULL"

def ofText? (text : String) : Option Tag := [string, number, bool, null].find? (·.text == text)

end Tag

inductive LineError where
  | emptyField (line : String)
  | noTable (line : String)
  | noKeys (line : String)
  | badDeletion (line : String)
  | badProperty (token : String)
  | repeatedProperty (name : String)
  | unsupportedOperation (opcode : String)
  | unsupportedType (tag : String)
  | invalidNumber (raw : String) (fault : NumberFault)
  deriving DecidableEq, Repr

def LineError.message : LineError → String
  | .emptyField line => s!"malformed line: empty field: '{line}'"
  | .noTable line => s!"malformed line: expected an opcode and a table: '{line}'"
  | .noKeys line => s!"malformed line: expected a partition key and a row key: '{line}'"
  | .badDeletion line => s!"malformed line: DELETE expects '*' or a partition key and a row key: '{line}'"
  | .badProperty token => s!"malformed line: property '{token}' is not name|value|TYPE"
  | .repeatedProperty name => s!"malformed line: property '{name}' appears more than once"
  | .unsupportedOperation opcode => s!"unsupported operation '{opcode}'"
  | .unsupportedType tag => s!"unsupported type '{tag}'"
  | .invalidNumber raw fault => s!"invalid number '{raw}': {fault.message}"

namespace Value

def encode : Value → List Char × Tag
  | .string s => (s.toList, .string)
  | .int64 n => (integerText n.toInt, .number)
  | .double x => (x.lineText, .number)
  | .bool b => ((if b then "true" else "false").toList, .bool)

/-- A number with a point is a double, any other an integer. -/
def decodeNumber (raw : List Char) : Except NumberFault Value :=
  if raw.contains '.' then (readDouble raw).map .double else (readInteger raw).map .int64

/-- Only the word true, in any case, is true; null has no value whatever its text. -/
def decodeAs (raw : List Char) : Tag → Except LineError (Option Value)
  | .string => .ok (some (.string (.ofList raw)))
  | .number =>
    match decodeNumber raw with
    | .ok v => .ok (some v)
    | .error fault => .error (.invalidNumber (.ofList raw) fault)
  | .bool => .ok (some (.bool (raw.map Char.toLower == ['t', 'r', 'u', 'e'])))
  | .null => .ok none

def decode (raw : List Char) (tag : String) : Except LineError (Option Value) :=
  match Tag.ofText? tag with
  | some tag => decodeAs raw tag
  | none => .error (.unsupportedType tag)

end Value

/-! ## writing -/

def propertyToken (p : String × Value) : List Char :=
  let (raw, tag) := p.2.encode
  ['|'].intercalate [p.1.toList, raw, tag.text.toList]

namespace Operation

def fields (op : Operation) : List (List Char) :=
  op.mode.opcode.toList :: op.table.toList ::
    match op.change with
    | .deleteAll => [['*']]
    | .row .delete e => [e.key.partition.toList, e.key.row.toList]
    | .row _ e => e.key.partition.toList :: e.key.row.toList :: e.properties.entries.map propertyToken
    | .updateAll p => p.properties.entries.map propertyToken

def render (op : Operation) : String := .ofList ([' '].intercalate op.fields)

/-! ## reading -/

def parseProperty (token : List Char) : Except LineError (String × Option Value) :=
  match token.splitOn '|' with
  | [name, raw, tag] =>
    if name = [] then .error (.badProperty (.ofList token))
    else (Value.decode raw (.ofList tag)).map (.ofList name, ·)
  | _ => .error (.badProperty (.ofList token))

/-- The properties of the remaining fields, each name at most once; `seen` are the names so far, nulls included. -/
def parseProperties (seen : List String) (acc : Properties) : List (List Char) → Except LineError Properties
  | [] => .ok acc
  | token :: r =>
    match parseProperty token with
    | .error e => .error e
    | .ok (name, value) =>
      if seen.contains name then .error (.repeatedProperty name)
      else parseProperties (name :: seen) (value.elim acc (acc.insert name)) r

def parseRow (line : String) : List (List Char) → Except LineError Entity
  | pk :: rk :: tokens => (parseProperties [] .empty tokens).map (⟨⟨.ofList pk, .ofList rk⟩, ·⟩)
  | _ => .error (.noKeys line)

/-- A star anywhere means the whole table. -/
def parseDeletion (line : String) (rest : List (List Char)) : Except LineError Change :=
  if rest.contains ['*'] then .ok .deleteAll
  else match rest with
    | [pk, rk] => .ok (.row .delete (.bare ⟨.ofList pk, .ofList rk⟩))
    | _ => .error (.badDeletion line)

def parseChange (line opcode : String) (rest : List (List Char)) : Except LineError Change :=
  match opcode with
  | "INSERT" => (parseRow line rest).map (.row .add)
  | "UPDATEM" => (parseRow line rest).map (.row .updateMerge)
  | "UPDATER" => (parseRow line rest).map (.row .updateReplace)
  | "UPSERTM" => (parseRow line rest).map (.row .upsertMerge)
  | "UPSERTR" => (parseRow line rest).map (.row .upsertReplace)
  | "UPDATEA" => (parseProperties [] .empty rest).map (.updateAll ⟨·⟩)
  | "DELETE" => parseDeletion line rest
  | other => .error (.unsupportedOperation other)

def parse (line : String) : Except LineError Operation :=
  let fields := line.toList.splitOn ' '
  if fields.any (·.isEmpty) then .error (.emptyField line)
  else match fields with
    | opcode :: table :: rest => (parseChange line (.ofList opcode) rest).map (⟨.ofList table, ·⟩)
    | _ => .error (.noTable line)

def parseLines (n : Nat) : List (List Char) → Except (Nat × LineError) (List Operation)
  | [] => .ok []
  | l :: ls =>
    match parse (.ofList l) with
    | .error e => .error (n, e)
    | .ok op => (parseLines (n + 1) ls).map (op :: ·)

end Operation

end TableMigrations
