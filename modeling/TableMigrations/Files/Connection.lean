/-
  TableMigrations.Files.Connection — an open database file.

  A change is written to the file under the guard of a journal, or to a log that is put into the file when the
  database is closed. Each transaction finds out anew what there is: a journal that was left behind is cleared away,
  a log that is there is read, and a database whose file says so is read through a log in any case.
-/
import TableMigrations.Files.Place
import TableMigrations.Store.Engine
import TableMigrations.Work

namespace TableMigrations

inductive IndexUse where
  /-- By the index beside the file, which is the file of this number. -/
  | shared (file : Nat)
  /-- By an index of its own. -/
  | own
  /-- By an index of its own, as the one beside the file cannot be written; nor can the database. -/
  | readOnly
  deriving DecidableEq, Repr

structure LogView where
  use : IndexUse
  image : Image
  /-- Whether there is anything in the log. -/
  filled : Bool
  deriving DecidableEq, Repr

structure OpenLog where
  file : Nat
  view : Option LogView
  deriving DecidableEq, Repr

structure Connection where
  tree : FileTree
  address : Address
  place : Location
  /-- The number of the file. -/
  file : Nat
  journal : JournalMode
  log : Option OpenLog
  deriving DecidableEq

namespace Connection

abbrev Work := TableMigrations.Work String Connection

def cannotOpen : String := "unable to open database file"
def refusal : String := "attempt to write a readonly database"
def notADatabase : String := "file is not a database"
def malformed : String := "database disk image is malformed"
def inputOutput : String := "disk I/O error"
def busy : String := "database is locked"
def protocol : String := "locking protocol"
def noRelations : String := "no such table"

def content (c : Connection) : Content := c.tree.content c.file

/-- Whether the file has lost its place; only a locked one is missed there. -/
def hasMoved (c : Connection) : Bool := c.address.medium.locksFile && c.tree.node? c.place != some (.file c.file)

/-- Whether a lock stands beside the file: the connection's own, or one that was left behind. -/
def isGuarded (c : Connection) : Bool :=
  c.address.medium = .guardedFile && (c.address.locked || (c.tree.node? (Place.lock c.place)).isSome)

/-! ## the log -/

/-- Opens the log, which is made if there is none. A new file beside the database's is made in its likeness. -/
def openLog : Work Unit := do
  let c ← get
  if !c.address.canLog || !c.tree.stands c.place then throw cannotOpen
  match c.tree.openOrMake (Place.log c.place) .empty with
  | none => throw cannotOpen
  | some (tree, n) => set { c with tree, journal := .wal, log := some ⟨n, none⟩ }

/-- Opens the index to the log and writes it anew. A directory can at least be opened to be read. Who only reads the
    database cannot lock it for itself, and uses the index beside it. -/
def openIndex : Work IndexUse := do
  let c ← get
  if c.address.medium = .exclusiveFile ∧ c.address.isWritable then return .own
  let l := Place.index c.place
  match c.tree.node? l with
  | some .directory => return .readOnly
  | some (.link _) => throw cannotOpen
  | some (.file n) =>
    if c.address.readOnlyIndex then return .readOnly
    set { c with tree := c.tree.setContent n .index }
    return .shared n
  | none =>
    if c.address.readOnlyIndex then throw cannotOpen
    match c.tree.openOrMake l .index with
    | none => throw cannotOpen
    | some (tree, n) =>
      set { c with tree }
      return .shared n

def logHeadSize : Nat := 32

/-- Whether bytes without the heading of a log look like one that was begun anew: their salt is not zero. -/
def looksRenewed (b : ByteArray) : Bool :=
  logHeadSize ≤ b.size && (b.extract 16 24).toList.any (· != 0)

def recover (main log : Content) : Except String Image :=
  match log, main with
  | .log l, .database _ => .ok l.image
  | .log l, _ => if l.whole then .ok l.image else .error notADatabase
  | _, .database i => .ok i
  | _, _ => .error notADatabase

def hasIndex (c : Connection) : IndexUse → Bool
  | .shared n => c.tree.content n == .index
  | .own | .readOnly => true

/-- What the database is by its log. That is looked up once, and again when the index has been lost. -/
def readLog (g : OpenLog) : Work LogView := do
  let c ← get
  let use ← match g.view with
    | none => openIndex
    | some v =>
      if c.hasIndex v.use then
        if !v.filled && !(c.content matches .database _) then throw malformed
        return v
      if let .shared n := v.use then set { c with tree := c.tree.setContent n .index }
      pure v.use
  let c ← get
  let log := c.tree.content g.file
  if use = .readOnly then
    if let .bytes b := log then
      if looksRenewed b then throw protocol
  let image ← recover c.content log
  let view : LogView := ⟨use, image, log matches .log _⟩
  set { c with log := some { g with view := some view } }
  return view

/-! ## transactions that read -/

/-- Clears away a journal that was left behind; one that starts with a zero, or is empty, is at its end. Where a lock
    stands beside the file, it is taken for somebody's that is at work. -/
def clearJournal : Work Unit := do
  let c ← get
  let l := Place.journal c.place
  if c.tree.speaks l && !c.isGuarded then
    if c.content.isEmpty then
      if c.address.isWritable || !c.address.locked then set { c with tree := c.tree.unlink l }
    else
      match c.tree.node? l with
      | some (.file n) =>
        if !c.tree.stands c.place then throw inputOutput
        if (c.tree.content n).toBytes[0]? != some 0 then
          if !c.address.isWritable then throw refusal
          set { c with tree := c.tree.unlink l }
      | some .directory => throw inputOutput
      | _ => throw cannotOpen

def findLog : Work Unit := do
  let c ← get
  let l := Place.log c.place
  if c.tree.speaks l then
    if c.content.isEmpty then
      if c.tree.node? l = some .directory then throw inputOutput
      set { c with tree := c.tree.unlink l }
    else openLog
  else if c.journal = .wal then set { c with journal := .delete }

def lookAround : Work Unit := do
  let c ← get
  if c.address.medium = .guardedFile ∧ c.address.locked ∧ (c.tree.node? (Place.lock c.place)).isSome then throw busy
  clearJournal
  findLog

def read (follow : Bool) : Work (Option Image) := do
  if (← get).address.immutable then
    match (← get).content with
    | .database i => return some i
    | content => if content.isEmpty then return none else throw notADatabase
  if (← get).log.isNone then lookAround
  match (← get).log with
  | some g => return some (← readLog g).image
  | none =>
    match (← get).content with
    | .database i =>
      if i.logged && follow then
        openLog
        match (← get).log with
        | some g => return some (← readLog g).image
        | none => throw cannotOpen
      else return some i
    | content => if content.isEmpty then return none else throw notADatabase

def relations : Work Relations := do
  match (← read true).bind (·.relations) with
  | some s => return s
  | none => throw noRelations

/-! ## transactions that write -/

def refusal? (c : Connection) : Option String :=
  if !c.address.isWritable then some refusal
  else if (c.log.bind (·.view)).any (·.use == .readOnly) then some refusal
  else none

/-- Why a change cannot be made, if so. For a journal beside it, the file has to be in its place. -/
def obstacle? (c : Connection) : Option String :=
  if let some e := c.refusal? then some e
  else if c.log.isSome || c.journal != .delete then none
  else if !c.content.isEmpty && c.hasMoved then some refusal
  else if !c.tree.stands c.place || (c.tree.openOrMake (Place.journal c.place) .empty).isNone then some cannotOpen
  else none

def commit (i : Image) : Work Unit := do
  if let some e := (← get).obstacle? then throw e
  modify fun c =>
    match c.log with
    | some g =>
      let whole := match c.tree.content g.file, c.content with
        | .log l, _ => l.whole
        | _, .database main => main.relations.isNone
        | _, _ => false
      { c with
        tree := c.tree.setContent g.file (.log ⟨i, whole⟩)
        log := some { g with view := g.view.map fun v => { v with image := i, filled := true } } }
    | none =>
      let tree := c.tree.setContent c.file (.database i)
      { c with tree := if c.journal = .delete then tree.unlink (Place.journal c.place) else tree }

def change (r : Relations) : Work Unit := do
  match ← read true with
  | some i => commit { i with relations := some r }
  | none => throw noRelations

/-! ## opening and closing -/

/-- Puts the log into the file, and takes it and its index away. Nothing is done if the log was never read, cannot be
    written, or is not what it was. -/
def putLog (c : Connection) : Option Connection := do
  let g ← c.log
  let v ← g.view
  let log := c.tree.content g.file
  if !c.address.isWritable || v.use == .readOnly || (v.filled && !(log matches .log _)) then none
  else
    let tree := match log with
      | .log l => c.tree.setContent c.file (.database l.image)
      | _ => c.tree
    let tree := tree.unlink (Place.log c.place)
    some { c with tree := if v.use matches .shared _ then tree.unlink (Place.index c.place) else tree, log := none }

def setLogged (logged : Bool) : Work Unit := do
  let image := (← read false).getD ⟨!logged, none⟩
  if image.logged != logged then commit { image with logged }

def clearEnded : Work Unit :=
  modify fun c =>
    let l := Place.journal c.place
    if c.tree.speaks l then { c with tree := c.tree.unlink l } else c

/-- Sets how transactions are guarded, if that can be. One who keeps a journal in memory after a log was in use finds
    none beside the file. -/
def setJournal (wanted : JournalMode) : Work Unit := do
  let _ ← read true
  let c ← get
  if wanted = .wal then
    if c.journal ≠ .wal ∧ c.address.canLog then
      setLogged true
      modify fun c => { c with journal := .wal }
  else if c.journal = .wal then
    match c.putLog with
    | none => throw inputOutput
    | some c =>
      set { c with journal := wanted }
      setLogged false
      if wanted = .memory then clearEnded
  else set { c with journal := wanted }

/-- Makes the relations if there are none. It takes more than one transaction, so the database is read again. -/
def makeRelations : Work Unit := do
  let image := (← read true).getD ⟨false, none⟩
  if image.relations.isNone then
    commit { image with relations := some .empty }
    let _ ← read true

/-- The tree after the connection is closed. The log is put into the file, unless that has lost its place. -/
def close (c : Connection) : FileTree := if c.hasMoved then c.tree else (c.putLog.getD c).tree

end Connection

end TableMigrations
