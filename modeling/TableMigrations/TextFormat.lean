/-
  TableMigrations.TextFormat — a format that values are written in as texts.

  A format has a node for each scalar, map, record and variant of an enumeration, finds each of them in a node, and
  writes nodes as texts that it reads. Which nodes a type is written as follows from how the type is declared; what a
  node and a text look like is the format's own business. What is relied on is that nothing is lost (`Lawful`).
-/
import TableMigrations.Number.Binary64

namespace TableMigrations

structure TextFormat where
  Node : Type
  write : Node → String
  read? : String → Option Node
  string : String → Node
  int64 : Int64 → Node
  double : Double → Node
  bool : Bool → Node
  map : List (String × Node) → Node
  record : List (String × Node) → Node
  /-- A variant that carries a value. -/
  variant : String → Node → Node
  /-- A variant that is only its name. -/
  bareVariant : String → Node
  string? : Node → Option String
  int64? : Node → Option Int64
  double? : Node → Option Double
  bool? : Node → Option Bool
  map? : Node → Option (List (String × Node))
  /-- The values of a record's fields of these names, in their order. -/
  record? : List String → Node → Option (List Node)
  /-- A variant's name, with what it carries if it carries anything. -/
  variant? : Node → Option (String × Option Node)
  /-- Whether a node that a variant carries is there for nothing. -/
  isUnit : Node → Bool

namespace TextFormat

variable (F : TextFormat)

inductive Written : F.Node → Prop
  | string (s : String) : Written (F.string s)
  | int64 (n : Int64) : Written (F.int64 n)
  | double (x : Double) : Written (F.double x)
  | bool (b : Bool) : Written (F.bool b)
  | map {entries : List (String × F.Node)} (h : ∀ e ∈ entries, Written e.2) : Written (F.map entries)
  | record {fields : List (String × F.Node)} (h : ∀ f ∈ fields, Written f.2) : Written (F.record fields)
  | variant (name : String) {n : F.Node} (h : Written n) : Written (F.variant name n)
  | bareVariant (name : String) : Written (F.bareVariant name)

/-- Nothing is lost in nodes and texts, except that a double may be read as another one. -/
structure Lawful : Prop where
  read?_write : ∀ n, F.Written n → F.read? (F.write n) = some n
  string?_string : ∀ s, F.string? (F.string s) = some s
  int64?_int64 : ∀ n, F.int64? (F.int64 n) = some n
  bool?_bool : ∀ b, F.bool? (F.bool b) = some b
  map?_map : ∀ entries, (entries.map (·.1)).Nodup → F.map? (F.map entries) = some entries
  record?_record : ∀ fields, (fields.map (·.1)).Nodup →
    F.record? (fields.map (·.1)) (F.record fields) = some (fields.map (·.2))
  variant?_variant : ∀ name n, F.variant? (F.variant name n) = some (name, some n)
  variant?_bareVariant : ∀ name, F.variant? (F.bareVariant name) = some (name, none)

end TextFormat

/-- The double is finite, and what the format's reader of numbers finds in the double's own text. -/
structure Double.KeptBy (F : TextFormat) (x : Double) : Prop where
  finite : x.isFinite = true
  found : (F.read? (F.write (F.double x))).bind F.double? = some x

end TableMigrations
