/-
  TableMigrations.Store.Memory — tables kept as ordered maps of rows.
-/
import TableMigrations.Store.Call

namespace TableMigrations

/-- The rows of one table; a row is filed under a key and holds its key as well. -/
abbrev Rows := SortedMap RowKey Entity

structure MemoryStore where
  tables : SortedMap String Rows
  deriving DecidableEq, Repr

namespace MemoryStore

def empty : MemoryStore := ⟨.empty⟩

instance : Inhabited MemoryStore := ⟨empty⟩

def tableNames (s : MemoryStore) : List String := s.tables.keys

def rowCount (s : MemoryStore) (table : String) : Option Nat := (s.tables.get? table).map (·.size)

def snapshot (s : MemoryStore) (table : String) : Except StoreError (List Entity) :=
  match s.tables.get? table with
  | some rows => .ok rows.values
  | none => .error (.tableNotFound table)

/-! ## calls -/

def ensureTable (s : MemoryStore) (table : String) : MemoryStore :=
  if s.tables.contains table then s else ⟨s.tables.insert table .empty⟩

def deleteTable (s : MemoryStore) (table : String) : MemoryStore := ⟨s.tables.erase table⟩

def getEntity (s : MemoryStore) (table : String) (key : RowKey) : Except StoreError (Option Entity) :=
  match s.tables.get? table with
  | some rows => .ok (rows.get? key)
  | none => .error (.tableNotFound table)

def applyAction (table : String) (rows : Rows) (a : BatchAction) : Except StoreError Rows :=
  match a.resolve table (rows.get? a.entity.key) with
  | .ok (.put e) => .ok (rows.insert a.entity.key e)
  | .ok .remove => .ok (rows.erase a.entity.key)
  | .error e => .error e

/-- A copy of a partition: from its least key on, the rows that come before another partition's. -/
def stage (rows : Rows) (partition : String) : Rows :=
  .ofList ((rows.startingAt ⟨partition, ""⟩).takeWhile (·.1.partition == partition))

/-- The actions work on a copy of the partition, which takes its place in the table only after the last of them. -/
def submitBatch (s : MemoryStore) (table partition : String) (actions : List BatchAction) :
    Except StoreError Unit × MemoryStore :=
  match checkBatch partition actions with
  | .error e => (.error e, s)
  | .ok () =>
    match s.tables.get? table with
    | none => (.error (.tableNotFound table), s)
    | some rows =>
      match applyActions (applyAction table) 0 (stage rows partition) actions with
      | .error e => (.error e, s)
      | .ok staged =>
        (.ok (), ⟨s.tables.insert table ((rows.filterKeys (·.partition != partition)).insertAll staged)⟩)

def queryPage (s : MemoryStore) (table : String) (pageSize : Nat) (after : Option RowKey) :
    Except StoreError EntityPage :=
  match s.tables.get? table with
  | some rows => .ok (.ofRows pageSize ((rows.past after).map (·.2)))
  | none => .error (.tableNotFound table)

instance : TableStore MemoryStore where
  perform s
    | .ensureTable t => (.ok (), s.ensureTable t)
    | .deleteTable t => (.ok (), s.deleteTable t)
    | .getEntity t k => (s.getEntity t k, s)
    | .submitBatch t p actions => s.submitBatch t p actions
    | .queryPage t n after => (s.queryPage t n after, s)
  rowTotal s := s.tables.values.foldr (·.size + ·) 0

end MemoryStore

end TableMigrations
