/-
  TableMigrations.Store.Relations — two relations, and the statements on them.

  One relation registers the names of tables. The other has the rows of all tables, each with its table's name and its
  key, and its properties as bytes. Texts are compared byte by byte (collation BINARY), as strings are here. When a
  name or a row was written is noted in the relations as well, but nothing asks for it.
-/
import TableMigrations.Store.Value

namespace TableMigrations

open Std

-- Other libraries compare bytes by instances of their own. This one, declared last, is the one that is found.
instance bytesDecidableEq : DecidableEq ByteArray := ByteArray.instDecidableEq

instance reprBytes : Repr ByteArray := ⟨fun b n => reprPrec b.data n⟩

structure RowAddress where
  table : String
  key : RowKey
  deriving DecidableEq, Repr

instance : Ord RowAddress := ⟨compareLex (compareOn RowAddress.table) (compareOn RowAddress.key)⟩

instance : TransOrd RowAddress :=
  inferInstanceAs (TransCmp (compareLex (compareOn RowAddress.table) (compareOn RowAddress.key)))

instance : LawfulEqOrd RowAddress where
  eq_of_compare {a b} h := by
    have h : (compare a.table b.table).then (compare a.key b.key) = .eq := h
    rw [Ordering.then_eq_eq] at h
    cases a
    cases b
    simp_all

structure Relations where
  names : SortedMap String Unit
  rows : SortedMap RowAddress ByteArray
  deriving DecidableEq, Repr

def Relations.empty : Relations := ⟨.empty, .empty⟩

/-- Whether a key is past another one, if that bounds it. Without a bound there is a key all the same, which says
    nothing. -/
def RowKey.isPast (key : RowKey) (bounded : Bool) (after : RowKey) : Bool :=
  !bounded || after.partition < key.partition || (key.partition == after.partition && after.row < key.row)

/-- As many of the rows as the limit lets through; one below zero lets through all. -/
def limited {α : Type} (limit : Int64) (rows : List α) : List α :=
  if limit < 0 then rows else rows.take limit.toNatClampNeg

/-! ## statements -/

inductive Statement where
  /-- `SELECT name FROM tabula_tables WHERE name = ?1` -/
  | selectName (table : String)
  /-- `SELECT name FROM tabula_tables ORDER BY name` -/
  | selectNames
  /-- `INSERT OR IGNORE INTO tabula_tables (name, created_at) VALUES (?1, ?2)` -/
  | insertName (table : String)
  /-- `DELETE FROM tabula_tables WHERE name = ?1` -/
  | deleteName (table : String)
  /-- `SELECT properties FROM tabula_entities WHERE table_name = ?1 AND partition_key = ?2 AND row_key = ?3` -/
  | selectRow (table : String) (key : RowKey)
  /-- `SELECT COUNT(*) FROM tabula_entities WHERE table_name = ?1` -/
  | countRows (table : String)
  /-- `SELECT partition_key, row_key, properties FROM tabula_entities WHERE table_name = ?1 AND (?2 = 0 OR
      partition_key > ?3 OR (partition_key = ?3 AND row_key > ?4)) ORDER BY partition_key, row_key LIMIT ?5` -/
  | selectPage (table : String) (bounded : Bool) (after : RowKey) (limit : Int64)
  /-- `INSERT INTO tabula_entities (…) VALUES (…) ON CONFLICT(table_name, partition_key, row_key) DO UPDATE SET
      properties = excluded.properties, updated_at = excluded.updated_at` -/
  | upsertRow (table : String) (key : RowKey) (properties : ByteArray)
  /-- `DELETE FROM tabula_entities WHERE table_name = ?1 AND partition_key = ?2 AND row_key = ?3` -/
  | deleteRow (table : String) (key : RowKey)
  /-- `DELETE FROM tabula_entities WHERE table_name = ?1` -/
  | deleteRows (table : String)

namespace Statement

abbrev Result : Statement → Type
  | .selectName _ => Option String
  | .selectNames => List String
  | .selectRow .. => Option ByteArray
  | .countRows _ => Int64
  | .selectPage .. => List (RowKey × ByteArray)
  | .insertName _ | .deleteName _ | .upsertRow .. | .deleteRow .. | .deleteRows _ => Unit

def answer (r : Relations) : (q : Statement) → q.Result
  | .selectName table => if r.names.contains table then some table else none
  | .selectNames => r.names.keys
  | .selectRow table key => r.rows.get? ⟨table, key⟩
  | .countRows table => .ofNat (r.rows.entries.filter (·.1.table == table)).length
  | .selectPage table bounded after limit =>
    limited limit
      ((r.rows.entries.filter fun e => e.1.table == table && e.1.key.isPast bounded after).map fun e => (e.1.key, e.2))
  | .insertName _ | .deleteName _ | .upsertRow .. | .deleteRow .. | .deleteRows _ => ()

def effect (r : Relations) : Statement → Relations
  | .insertName table => { r with names := r.names.insert table () }
  | .deleteName table => { r with names := r.names.erase table }
  | .upsertRow table key properties => { r with rows := r.rows.insert ⟨table, key⟩ properties }
  | .deleteRow table key => { r with rows := r.rows.erase ⟨table, key⟩ }
  | .deleteRows table => { r with rows := r.rows.filterKeys (·.table != table) }
  | .selectName _ | .selectNames | .selectRow .. | .countRows _ | .selectPage .. => r

end Statement

end TableMigrations
