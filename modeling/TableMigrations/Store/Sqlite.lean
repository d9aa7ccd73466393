/-
  TableMigrations.Store.Sqlite — tables kept in a database.

  A registered name is a table, and its rows are those that are filed under the name. A batch and the deletion of a
  table are transactions, which are dropped if anything in them fails.
-/
import TableMigrations.Store.Call
import TableMigrations.Store.Engine
import TableMigrations.Work

namespace TableMigrations

structure SqliteConfig where
  journal : JournalMode
  /-- How long to wait for other users, in milliseconds. -/
  busyTimeout : Nat
  deriving DecidableEq, Repr

def SqliteConfig.default : SqliteConfig := ⟨.wal, 5000⟩

structure SqliteStore (E : Engine) where
  connection : E.Connection

namespace SqliteStore

variable {E : Engine}

abbrev Work (E : Engine) := TableMigrations.Work StoreError E.Connection

def ask {α : Type} (demand : Demand E.Connection α) : Work E α := .mk fun c =>
  let (answer, c) := demand c
  (answer.mapError .database, c)

/-! ## rows -/

def encode (E : Engine) (properties : Properties) : Except StoreError ByteArray :=
  (E.encode properties).mapError .codec

def decode (E : Engine) (key : RowKey) (b : ByteArray) : Except StoreError Entity :=
  ((E.decode b).mapError .codec).map fun properties => ⟨key, properties⟩

def loadRow (table : String) (key : RowKey) : Work E (Option Entity) := do
  match ← ask (E.execute (.selectRow table key)) with
  | some b => return some (← decode E key b)
  | none => return none

def apply (table : String) (a : BatchAction) : Work E Unit := do
  let existing ← loadRow table a.entity.key
  match ← a.resolve table existing with
  | .put row => do
    let b ← encode E row.properties
    ask (E.execute (.upsertRow table row.key b))
  | .remove => ask (E.execute (.deleteRow table a.entity.key))

/-- The actions in turn; the first that fails rejects the batch with its index. -/
def applyAll (table : String) (index : Nat) : List BatchAction → Work E Unit
  | [] => return
  | a :: r => do
    ExceptT.adapt (.batchRejected index) (apply table a)
    applyAll table (index + 1) r

/-- Work as a transaction, which is dropped if the work or the commit fails. -/
def transaction (work : Work E Unit) : Work E Unit := do
  ask E.start
  tryCatch (do work; ask E.commit) fun e => do
    modify E.rollback
    throw e

/-! ## calls -/

def tableExists (table : String) : Work E Bool := do return (← ask (E.execute (.selectName table))).isSome

def requireTable (table : String) : Work E Unit := do
  if !(← tableExists table) then throw (.tableNotFound table)

/-- How many rows are asked for: one more than a page has tells whether another page follows. No more can be asked for
    than an integer of 64 bits says. -/
def fetchLimit (pageSize : Nat) : Int64 :=
  if pageSize + 1 < int64Half then .ofNat (pageSize + 1) else .maxValue

def queryPage (table : String) (pageSize : Nat) (after : Option RowKey) : Work E EntityPage := do
  requireTable table
  let fetched ← ask (E.execute (.selectPage table after.isSome (after.getD ⟨"", ""⟩) (fetchLimit pageSize)))
  let entities ← (fetched.take pageSize).mapM fun r => decode E r.1 r.2
  return ⟨entities, if pageSize < fetched.length then entities.getLast?.map (·.key) else none⟩

def call : (c : Call) → Work E c.Result
  | .ensureTable table => ask (E.execute (.insertName table))
  | .deleteTable table => transaction do
    ask (E.execute (.deleteRows table))
    ask (E.execute (.deleteName table))
  | .getEntity table key => do
    requireTable table
    loadRow table key
  | .submitBatch table partition actions => do
    checkBatch partition actions
    requireTable table
    transaction (applyAll table 0 actions)
  | .queryPage table pageSize after => queryPage table pageSize after

/-! ## what is there -/

def tableNames : Work E (List String) := ask (E.execute .selectNames)

def rowCount (table : String) : Work E Nat := do
  return (← ask (E.execute (.countRows table))).toUInt64.toNat

def fileSize : Work E Nat := do
  let count ← ask E.pageCount
  let size ← ask E.pageSize
  return (count * size).toUInt64.toNat

def journalMode : Work E String := ask E.journalMode

def on {α : Type} (s : SqliteStore E) (work : Work E α) : Except StoreError α × SqliteStore E :=
  let (answer, connection) := work.on s.connection
  (answer, ⟨connection⟩)

def countAll : Work E Nat := do return (← (← tableNames).mapM rowCount).foldr (· + ·) 0

instance : TableStore (SqliteStore E) where
  perform s c := s.on (call c)
  rowTotal s := match (s.on countAll).1 with
    | .ok n => n
    | .error _ => 0

/-! ## opening and closing -/

/-- What is done first on a connection. One on which it fails is closed. -/
def prepare (config : SqliteConfig) (connection : E.Connection) : Except (StoreError × E.World) (SqliteStore E) :=
  let work : Work E Unit := do
    ask (E.configure config.journal config.busyTimeout)
    ask E.createRelations
  match work.on connection with
  | (.ok (), connection) => .ok ⟨connection⟩
  | (.error e, connection) => .error (e, E.close connection)

def openWithConfig (w : E.World) (path : String) (config : SqliteConfig) :
    Except (StoreError × E.World) (SqliteStore E) :=
  match E.openPath w path with
  | .ok connection => prepare config connection
  | .error (e, w) => .error (.database e, w)

def openInMemory (w : E.World) : Except (StoreError × E.World) (SqliteStore E) :=
  match E.openInMemory w with
  | .ok connection => prepare .default connection
  | .error (e, w) => .error (.database e, w)

def close (s : SqliteStore E) : E.World := E.close s.connection

def reopen (s : SqliteStore E) (path : String) (config : SqliteConfig) :
    Except (StoreError × E.World) (SqliteStore E) :=
  openWithConfig s.close path config

end SqliteStore

end TableMigrations
