/-
  TableMigrations.Run — applying the migrations that have not been applied, and telling which have.

  A run looks each migration up in the history ledger in turn. One with a record is skipped; any other is read,
  executed and recorded. The record is written without another look at cancellation, so that work which is done
  is also recorded.
-/
import TableMigrations.Execution
import TableMigrations.Migration.Text
import TableMigrations.Options

namespace TableMigrations

structure MigrationFile where
  id : String
  name : String
  path : String
  deriving DecidableEq, Repr

def historyKey (id : String) : RowKey := ⟨"migration", id⟩

def historyRecord (id : String) : Entity := .bare (historyKey id)

/-- The operations that a migration file asks for, by what reading it gives. -/
def MigrationFile.operations (f : MigrationFile) (content : Except FileError String) :
    Except MigrateError (List Operation) :=
  match content with
  | .error e => .error (.read f.path e)
  | .ok text =>
    match parseMigration text with
    | .error (n, e) => .error (.parse n e)
    | .ok ops => .ok ops

/-! ## runs -/

/-- The migrations that a run applied and those it found applied, in order. -/
structure Summary where
  applied : List String
  skipped : List String
  deriving DecidableEq, Repr

inductive Stage where
  /-- The ledger's table is made sure of. -/
  | opening
  /-- The next migration is looked up. -/
  | choosing
  /-- The migration is read. -/
  | reading (m : MigrationFile)
  /-- The migration is being executed, or recorded when its steps are done. -/
  | applying (id : String) (execution : Execution)
  deriving DecidableEq, Repr

structure Run where
  options : Options
  stage : Stage
  waiting : List MigrationFile
  summary : Summary

namespace Run

def start (options : Options) (migrations : List MigrationFile) : Run := ⟨options, .opening, migrations, ⟨[], []⟩⟩

def lookedUp (r : Run) (m : MigrationFile) (rest : List MigrationFile) : Option Entity → Run
  | some _ => { r with waiting := rest, summary := { r.summary with skipped := r.summary.skipped ++ [m.id] } }
  | none => { r with stage := .reading m, waiting := rest }

def received (r : Run) (m : MigrationFile) (content : Except FileError String) : Except MigrateError Run :=
  match m.operations content with
  | .error e => .error (.migration m.id e)
  | .ok ops => .ok { r with stage := .applying m.id (.start r.options.limits ops) }

def recorded (r : Run) (id : String) : Except StoreError Unit → Except MigrateError Run
  | .ok () => .ok { r with stage := .choosing, summary := { r.summary with applied := r.summary.applied ++ [id] } }
  | .error e =>
    let e := e.ofRecord
    .error (.migration id (if e.isConflict then .historyConflict id else .store e))

def next (r : Run) : Next Run Summary :=
  match r.stage, r.waiting with
  | .opening, [] => .done (.ok r.summary)
  | .opening, _ :: _ =>
    .call true .ledger (.ensureTable r.options.historyTable) fun
      | .ok () => .ok { r with stage := .choosing }
      | .error e => .error (.store e)
  | .choosing, [] => .done (.ok r.summary)
  | .choosing, m :: rest =>
    .call true .ledger (.getEntity r.options.historyTable (historyKey m.id)) fun
      | .ok found => .ok (r.lookedUp m rest found)
      | .error e => .error (.migration m.id (.store e))
  | .reading m, _ => .read m.path (r.received m)
  | .applying id x, _ =>
    match x.next with
    | .done (.error e) => .done (.error (.migration id e))
    | .done (.ok _) => .call false .ledger (recordCall r.options.historyTable (historyRecord id)) (r.recorded id)
    | .checkpoint x => .checkpoint { r with stage := .applying id x }
    | .call guarded target c resume =>
      .call guarded target c fun answer =>
        match resume answer with
        | .ok x => .ok { r with stage := .applying id x }
        | .error e => .error (.migration id e)
    | .read path resume =>
      .read path fun content =>
        match resume content with
        | .ok x => .ok { r with stage := .applying id x }
        | .error e => .error (.migration id e)

instance : Process Run Summary := ⟨next⟩

abbrev Reading := MigrationFile × Except FileError String

def migrationWrites : Reading → Nat
  | (m, content) => match m.operations content with | .ok ops => ops.length + 1 | .error _ => 1

def writes (readings : List Reading) : Nat := readings.foldr (migrationWrites · + ·) 0

/-- The transitions that a migration takes at most, when no table ever has more than `rows` rows. -/
def migrationBudget (options : Options) (rows : Nat) : Reading → Nat
  | (m, content) =>
    match m.operations content with
    | .ok ops => (Execution.start options.limits ops).budget rows + 2
    | .error _ => 2

def budget (options : Options) (rows : Nat) (readings : List Reading) : Nat :=
  readings.foldr (migrationBudget options rows · + ·) 0 + 2

end Run

/-- Applies the migrations that the ledger does not list. A migration is read when its turn comes. -/
def run {σ η : Type} [TableStore σ] [TableStore η] (files : FileReader σ) (cond : Conditions) (options : Options)
    (migrations : List MigrationFile) (stores : Stores σ η) : Course σ η Summary :=
  let readings := migrations.map fun m => (m, files stores.data m.path)
  follow files cond (Run.budget options (stores.rowTotal + Run.writes readings) readings) 0 stores
    (Run.start options migrations)

/-! ## status -/

structure MigrationStatus where
  id : String
  path : String
  applied : Bool
  deriving DecidableEq, Repr

/-- The migrations yet to be looked up, and what was found about the others. -/
structure Inspection where
  historyTable : String
  waiting : List MigrationFile
  found : List MigrationStatus

namespace Inspection

/-- Without a ledger nothing has been applied. -/
def next (i : Inspection) : Next Inspection (List MigrationStatus) :=
  match i.waiting with
  | [] => .done (.ok i.found)
  | m :: rest =>
    let told (applied : Bool) : Inspection := { i with waiting := rest, found := i.found ++ [⟨m.id, m.path, applied⟩] }
    .call false .ledger (.getEntity i.historyTable (historyKey m.id)) fun
      | .ok record => .ok (told record.isSome)
      | .error (.tableNotFound _) => .ok (told false)
      | .error e => .error (.store e)

instance : Process Inspection (List MigrationStatus) := ⟨next⟩

end Inspection

/-- Looks every migration up in the ledger; no file is read. -/
def status {σ η : Type} [TableStore σ] [TableStore η] (cond : Conditions) (options : Options)
    (migrations : List MigrationFile) (stores : Stores σ η) : Course σ η (List MigrationStatus) :=
  follow (fun _ _ => .error .notFound) cond (migrations.length + 1) 0 stores (⟨options.historyTable, migrations, []⟩ : Inspection)

end TableMigrations
