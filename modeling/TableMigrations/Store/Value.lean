/-
  TableMigrations.Store.Value — typed property values, and the rows that hold them.

  Rows are compared as numbers compare: the two zeros agree, and a row that holds a not-a-number agrees with no
  row, itself included. Equality of values in the logic is identity.
-/
import TableMigrations.Number.Notation
import TableMigrations.SortedMap

namespace TableMigrations

open Std

inductive Value where
  | string (s : String)
  | int64 (n : Int64)
  | double (x : Double)
  | bool (b : Bool)
  deriving DecidableEq, Repr

namespace Value

def agrees : Value → Value → Bool
  | .string a, .string b => a == b
  | .int64 a, .int64 b => a == b
  | .double a, .double b => a.agrees b
  | .bool a, .bool b => a == b
  | _, _ => false

theorem agrees_of_ne_nan {v : Value} (h : v ≠ .double .nan) : v.agrees v = true := by
  cases v with
  | string | bool | int64 => exact beq_self_eq_true _
  | double x =>
    cases x with
    | finite negative c => simp [agrees, Double.agrees]
    | infinite negative => exact beq_self_eq_true negative
    | nan => exact absurd rfl h

def display : Value → List Char
  | .string s => s.toList
  | .int64 n => integerText n.toInt
  | .double x => x.plainText
  | .bool b => (if b then "true" else "false").toList

end Value

abbrev Properties := SortedMap String Value

def Properties.agrees (a b : Properties) : Bool :=
  a.keys == b.keys && (a.values.zip b.values).all fun p => p.1.agrees p.2

/-! ## rows -/

/-- The key of a row: rows are ordered by partition first. -/
structure RowKey where
  partition : String
  row : String
  deriving DecidableEq, Repr

instance : Ord RowKey := ⟨compareLex (compareOn RowKey.partition) (compareOn RowKey.row)⟩

instance : TransOrd RowKey := inferInstanceAs (TransCmp (compareLex (compareOn RowKey.partition) (compareOn RowKey.row)))

instance : LawfulEqOrd RowKey where
  eq_of_compare {a b} h := by
    have h : (compare a.partition b.partition).then (compare a.row b.row) = .eq := h
    rw [Ordering.then_eq_eq] at h
    cases a
    cases b
    simp_all

structure Entity where
  key : RowKey
  properties : Properties
  deriving DecidableEq, Repr

namespace Entity

def bare (key : RowKey) : Entity := ⟨key, .empty⟩

def get? (e : Entity) (name : String) : Option Value := e.properties.get? name

def set (e : Entity) (name : String) (v : Value) : Entity := { e with properties := e.properties.insert name v }

/-- The properties of `other` are written over those of `e`, which keeps the others. -/
def merge (e other : Entity) : Entity := { e with properties := e.properties.insertAll other.properties }

def agrees (a b : Entity) : Bool := a.key == b.key && a.properties.agrees b.properties

end Entity

end TableMigrations
