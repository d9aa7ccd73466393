/-
  TableMigrations.Store.Engine — the database engine that a store works with.

  The engine opens databases and carries out the statements on them, and it writes properties as bytes. It is a
  parameter of the store, and of all that is proved of the store: `Documented` is what its documentation says of a
  database that nobody else works on and that meets no failure of the machine.
-/
import TableMigrations.Store.Relations

namespace TableMigrations

/-- How the database guards a transaction against a crash. It changes no answer but its own name. -/
inductive JournalMode where
  | wal
  | delete
  | memory
  deriving DecidableEq, Repr

def JournalMode.name : JournalMode → String
  | .wal => "wal"
  | .delete => "delete"
  | .memory => "memory"

/-- Something asked of the engine on a connection: an answer or why there is none, and the connection after it. -/
abbrev Demand (connection α : Type) := connection → Except String α × connection

structure Engine where
  /-- What there is apart from connections. -/
  World : Type
  Connection : Type
  /-- Opens the database of a path, or of nothing. One that fails leaves a world. -/
  openPath : World → String → Except (String × World) Connection
  openInMemory : World → Except (String × World) Connection
  /-- Sets the journal mode, and how many milliseconds to wait for other users. -/
  configure : JournalMode → Nat → Demand Connection Unit
  /-- Makes the two relations if they are not there. -/
  createRelations : Demand Connection Unit
  execute (q : Statement) : Demand Connection q.Result
  /-- Begins a transaction. -/
  start : Demand Connection Unit
  commit : Demand Connection Unit
  /-- Drops the transaction, if there is one. -/
  rollback : Connection → Connection
  journalMode : Demand Connection String
  pageCount : Demand Connection Int64
  pageSize : Demand Connection Int64
  close : Connection → World
  encode : Properties → Except String ByteArray
  decode : ByteArray → Except String Properties

namespace Engine

inductive Standing where
  /-- The database has been opened. It may have no relations yet. -/
  | opened (r : Option Relations)
  | configured (r : Option Relations)
  /-- There is no transaction. -/
  | idle (r : Relations)
  /-- There is a transaction, which began with `before` and has come to `now`. -/
  | within (before now : Relations)
  deriving DecidableEq, Repr

structure Documented (E : Engine) where
  /-- What a world keeps under a path; nothing, if there is no database yet but one can be made. -/
  Keeps : E.World → String → Option Relations → Prop
  /-- Where a connection stands that was opened by a path, or without one. -/
  Stands : E.Connection → Option String → Standing → Prop
  openPath {w : E.World} {path : String} {r : Option Relations} (h : Keeps w path r) :
    ∃ c, E.openPath w path = .ok c ∧ Stands c (some path) (.opened r)
  openInMemory (w : E.World) : ∃ c, E.openInMemory w = .ok c ∧ Stands c none (.opened none)
  configure {c : E.Connection} {path : Option String} {r : Option Relations} (h : Stands c path (.opened r))
    (wanted : JournalMode) (timeout : Nat) :
    ∃ d, E.configure wanted timeout c = (.ok (), d) ∧ Stands d path (.configured r)
  createRelations {c : E.Connection} {path : Option String} {r : Option Relations} (h : Stands c path (.configured r)) :
    ∃ d, E.createRelations c = (.ok (), d) ∧ Stands d path (.idle (r.getD .empty))
  /-- By itself a statement is carried out at once. -/
  execute {c : E.Connection} {path : Option String} {r : Relations} (h : Stands c path (.idle r)) (q : Statement) :
    ∃ d, E.execute q c = (.ok (q.answer r), d) ∧ Stands d path (.idle (q.effect r))
  start {c : E.Connection} {path : Option String} {r : Relations} (h : Stands c path (.idle r)) :
    ∃ d, E.start c = (.ok (), d) ∧ Stands d path (.within r r)
  /-- A transaction sees what it has done. -/
  executeWithin {c : E.Connection} {path : Option String} {before now : Relations}
    (h : Stands c path (.within before now)) (q : Statement) :
    ∃ d, E.execute q c = (.ok (q.answer now), d) ∧ Stands d path (.within before (q.effect now))
  commit {c : E.Connection} {path : Option String} {before now : Relations} (h : Stands c path (.within before now)) :
    ∃ d, E.commit c = (.ok (), d) ∧ Stands d path (.idle now)
  /-- A transaction that is dropped has done nothing. -/
  rollback {c : E.Connection} {path : Option String} {before now : Relations} (h : Stands c path (.within before now)) :
    Stands (E.rollback c) path (.idle before)
  /-- A database that is closed is kept. -/
  close {c : E.Connection} {path : String} {r : Relations} (h : Stands c (some path) (.idle r)) :
    Keeps (E.close c) path (some r)
  decode_encode (properties : Properties) : ∃ b, E.encode properties = .ok b ∧ E.decode b = .ok properties

end Engine

end TableMigrations
