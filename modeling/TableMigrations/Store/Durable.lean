/-
  TableMigrations.Store.Durable — tables kept as two relations: the registered table names, and the rows of all
  tables together, each with its table's name.

  This is what a database comes to when nothing but its relations is looked at: properties are themselves and not
  bytes, a batch or a table deletion takes effect as a whole, and no page is too large to be asked for.
-/
import TableMigrations.Store.Call
import TableMigrations.Store.Relations

namespace TableMigrations

structure DurableStore where
  registry : SortedMap String Unit
  rows : SortedMap RowAddress Properties
  deriving DecidableEq, Repr

namespace DurableStore

def empty : DurableStore := ⟨.empty, .empty⟩

instance : Inhabited DurableStore := ⟨empty⟩

def tableNames (s : DurableStore) : List String := s.registry.keys

def rowsPast (s : DurableStore) (table : String) (after : Option RowKey) : List Entity :=
  (s.rows.entries.filter fun e =>
    e.1.table == table && e.1.key.isPast after.isSome (after.getD ⟨"", ""⟩)).map fun e => ⟨e.1.key, e.2⟩

def rowCount (s : DurableStore) (table : String) : Nat := (s.rowsPast table none).length

/-! ## calls -/

def ensureTable (s : DurableStore) (table : String) : DurableStore := { s with registry := s.registry.insert table () }

def deleteTable (s : DurableStore) (table : String) : DurableStore :=
  ⟨s.registry.erase table, s.rows.filterKeys (·.table != table)⟩

def loadRow (rows : SortedMap RowAddress Properties) (table : String) (key : RowKey) : Option Entity :=
  (rows.get? ⟨table, key⟩).map fun properties => ⟨key, properties⟩

def getEntity (s : DurableStore) (table : String) (key : RowKey) : Except StoreError (Option Entity) :=
  if s.registry.contains table then .ok (loadRow s.rows table key) else .error (.tableNotFound table)

def applyAction (table : String) (rows : SortedMap RowAddress Properties) (a : BatchAction) :
    Except StoreError (SortedMap RowAddress Properties) :=
  match a.resolve table (loadRow rows table a.entity.key) with
  | .ok (.put e) => .ok (rows.insert ⟨table, e.key⟩ e.properties)
  | .ok .remove => .ok (rows.erase ⟨table, a.entity.key⟩)
  | .error e => .error e

def submitBatch (s : DurableStore) (table partition : String) (actions : List BatchAction) :
    Except StoreError Unit × DurableStore :=
  match checkBatch partition actions with
  | .error e => (.error e, s)
  | .ok () =>
    if s.registry.contains table then
      match applyActions (applyAction table) 0 s.rows actions with
      | .error e => (.error e, s)
      | .ok rows => (.ok (), { s with rows })
    else (.error (.tableNotFound table), s)

def queryPage (s : DurableStore) (table : String) (pageSize : Nat) (after : Option RowKey) :
    Except StoreError EntityPage :=
  if s.registry.contains table then .ok (.ofRows pageSize (s.rowsPast table after))
  else .error (.tableNotFound table)

instance : TableStore DurableStore where
  perform s
    | .ensureTable t => (.ok (), s.ensureTable t)
    | .deleteTable t => (.ok (), s.deleteTable t)
    | .getEntity t k => (s.getEntity t k, s)
    | .submitBatch t p actions => s.submitBatch t p actions
    | .queryPage t n after => (s.queryPage t n after, s)
  rowTotal s := s.rows.size

end DurableStore

end TableMigrations
