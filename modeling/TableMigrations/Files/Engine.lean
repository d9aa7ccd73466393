/-
  TableMigrations.Files.Engine — a database engine on the tree of files.

  A database is in a file that its address leads to, or in none: such a database is gone when it is closed. What a
  transaction changes is put into the database by the commit.
-/
import TableMigrations.Files.Connection

namespace TableMigrations

inductive Home where
  /-- Nothing but the tree around it. It may have no relations yet. -/
  | volatile (tree : FileTree) (journal : JournalMode) (relations : Option Relations)
  | filed (c : Connection)
  deriving DecidableEq

inductive Transaction where
  | absent
  /-- It has changed nothing. -/
  | begun
  /-- It has made these of the relations. -/
  | changed (r : Relations)
  deriving DecidableEq

namespace Statement

def isWrite : Statement → Bool
  | .insertName _ | .deleteName _ | .upsertRow .. | .deleteRow .. | .deleteRows _ => true
  | .selectName _ | .selectNames | .selectRow .. | .countRows _ | .selectPage .. => false

def alters (r : Relations) : Statement → Bool
  | .insertName table => !r.names.contains table
  | .deleteName table => r.names.contains table
  | .upsertRow .. => true
  | .deleteRow table key => r.rows.contains ⟨table, key⟩
  | .deleteRows table => r.rows.entries.any (·.1.table == table)
  | .selectName _ | .selectNames | .selectRow .. | .countRows _ | .selectPage .. => false

end Statement

structure Handle where
  home : Home
  transaction : Transaction
  deriving DecidableEq

namespace Handle

abbrev Work := TableMigrations.Work String Handle

def tree (h : Handle) : FileTree :=
  match h.home with
  | .volatile t _ _ => t
  | .filed c => c.tree

def journal (h : Handle) : JournalMode :=
  match h.home with
  | .volatile _ journal _ => journal
  | .filed c => c.journal

def withTree (t : FileTree) (h : Handle) : Handle :=
  { h with
    home := match h.home with
      | .volatile _ journal r => .volatile t journal r
      | .filed c => .filed { c with tree := t } }

def onFile {α : Type} (c : Connection) (w : Connection.Work α) : Work α := .mk fun h =>
  let (answer, c) := w.on c
  (answer, { h with home := .filed c })

/-! ## statements -/

def current : Work Relations := do
  let h ← get
  match h.transaction, h.home with
  | .changed r, _ => return r
  | _, .volatile _ _ (some r) => return r
  | _, .volatile _ _ none => throw Connection.noRelations
  | _, .filed c => onFile c Connection.relations

def put (r : Relations) : Work Unit := do
  match (← get).home with
  | .volatile t journal _ => modify fun h => { h with home := .volatile t journal (some r) }
  | .filed c => onFile c (Connection.change r)

def refusal? (h : Handle) : Option String :=
  match h.home with
  | .volatile .. => none
  | .filed c => c.refusal?

def obstacle? (h : Handle) : Option String :=
  match h.home with
  | .volatile .. => none
  | .filed c => c.obstacle?

def keep (r : Relations) : Work Unit := do
  match (← get).transaction with
  | .absent => put r
  | .begun | .changed _ =>
    if let some e := (← get).obstacle? then throw e
    modify fun h => { h with transaction := .changed r }

/-- A statement that changes nothing is only refused where nothing may be written. -/
def execute (q : Statement) : Work q.Result := do
  let r ← current
  if q.isWrite then
    if let some e := (← get).refusal? then throw e
    if q.alters r then keep (q.effect r)
  return q.answer r

/-! ## transactions -/

def start : Work Unit := do
  match (← get).transaction with
  | .absent => modify fun h => { h with transaction := .begun }
  | _ => throw "cannot start a transaction within a transaction"

def commit : Work Unit := do
  match (← get).transaction with
  | .absent => throw "cannot commit - no transaction is active"
  | .begun => pure ()
  | .changed r => put r
  modify fun h => { h with transaction := .absent }

def rollback (h : Handle) : Handle := { h with transaction := .absent }

/-! ## opening and closing -/

def toFile (t : FileTree) (a : Address) (l : Location) (file : Nat) : Handle :=
  ⟨.filed ⟨t, a, l, file, .delete, none⟩, .absent⟩

/-- A database without a file; its journal is in memory as well if it never goes to a disk. -/
def withoutFile (t : FileTree) (journal : JournalMode) : Handle := ⟨.volatile t journal none, .absent⟩

def nameless (t : FileTree) (a : Address) (journal : JournalMode) : Except (String × FileTree) Handle :=
  if a.access = .readOnly then .error (Connection.refusal, t) else .ok (withoutFile t journal)

/-- Connects to the database of an address. Its file is made if there is none and it may be. -/
def openPath (t : FileTree) (address : String) : Except (String × FileTree) Handle :=
  let fail : Except (String × FileTree) Handle := .error (Connection.cannotOpen, t)
  if address.contains '\x00' then fail
  else match Address.read? address with
    | none => fail
    | some a =>
      if a.path = ":memory:" ∨ a.access = .memory then nameless t a .memory
      else if a.path = "" then nameless t a .delete
      else if a.medium = .memory then
        if a.immutable then .error (Connection.refusal, t)
        else if Place.maxMemoryPathSize < a.path.utf8ByteSize + Place.sideNameSize then fail
        else nameless t a .memory
      else if a.pattern.any fun path => !(t.resolve .target path).isOk then fail
      else match Place.ofPath t a.path with
        | none => fail
        | some l =>
          match t.node? l with
          | some (.file n) => .ok (toFile t a l n)
          | none => if a.access = .create then .ok (toFile (t.addFile l .empty) a l t.contents.size) else fail
          | some .directory | some (.link _) => fail

def close (h : Handle) : FileTree :=
  match h.home with
  | .volatile t _ _ => t
  | .filed c => c.close

/-- Sets how transactions are guarded. A database without a file stays with what it has. -/
def configure (wanted : JournalMode) : Work Unit := do
  if let .filed c := (← get).home then onFile c (Connection.setJournal wanted)

def createRelations : Work Unit := do
  match (← get).home with
  | .volatile _ _ (some _) => pure ()
  | .volatile _ _ none => put .empty
  | .filed c => onFile c Connection.makeRelations

def pageCount : Work Nat := do
  match (← get).home with
  | .volatile _ _ r => return (⟨false, r⟩ : Image).pages
  | .filed c => return ((← onFile c (Connection.read true)).map (·.pages)).getD 0

end Handle

/-! ## the engine -/

/-- Bytes that cannot be decoded are always told to have ended too soon. -/
def undecodable : String := "Hit the end of buffer, expected more data"

def Files.engine : Engine where
  World := FileTree
  Connection := Handle
  openPath := Handle.openPath
  openInMemory t := .ok (Handle.withoutFile t .memory)
  configure wanted _ := (Handle.configure wanted).on
  createRelations := Handle.createRelations.on
  execute q := (Handle.execute q).on
  start := Handle.start.on
  commit := Handle.commit.on
  rollback := Handle.rollback
  journalMode h := (.ok h.journal.name, h)
  pageCount := (Int64.ofNat <$> Handle.pageCount).on
  pageSize h := (.ok (.ofNat Image.pageSize), h)
  close := Handle.close
  encode properties := .ok ⟨(Codec.properties.write properties).toArray⟩
  decode b :=
    match Codec.properties.read? b.data.toList with
    | some (properties, _) => .ok properties
    | none => .error undecodable

end TableMigrations
