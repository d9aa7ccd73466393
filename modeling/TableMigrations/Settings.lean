/-
  TableMigrations.Settings — the settings file, and the settings that a command works with.

  The file has a section for the store and one for the migrations. All entries are optional, others are refused, and
  what the command line says goes first.
-/
import TableMigrations.Files.Discovery
import TableMigrations.Toml.Reader

namespace TableMigrations

structure FileConfig where
  database : Option String
  directory : Option String
  extension : Option String
  tablePrefix : Option String
  pageSize : Option Nat
  deriving DecidableEq, Repr

inductive ConfigError where
  | read (path : String) (source : FileError)
  | invalid (path : String)
  deriving DecidableEq, Repr

def ConfigError.message : ConfigError → String
  | .read path e => s!"failed to read config {path}: {e.message}"
  | .invalid path => s!"invalid config {path}: not a table of known settings"

namespace FileConfig

def empty : FileConfig := ⟨none, none, none, none, none⟩

/-! ## reading -/

/-- The values of a section's entries of these names, if they have one. The section is a table with no other entries,
    or an array of their values in this order, as far as it goes. -/
def sectionValues (names : List String) : Option Toml → Option (List (Option Toml))
  | none => some (names.map fun _ => none)
  | some (.table _ entries) =>
    if entries.all fun e => names.contains e.1 then some (names.map fun name => Toml.Entries.get? entries name) else none
  | some (.array items) => some ((List.range names.length).map fun n => items[n]?)
  | some _ => none

def textEntry : Option Toml → Option (Option String)
  | none => some none
  | some (.string s) => some (some s)
  | some _ => none

def sizeEntry : Option Toml → Option (Option Nat)
  | none => some none
  | some (.integer n) => if 0 ≤ n then some (some n.toNat) else none
  | some _ => none

def ofEntries (entries : Toml.Entries) : Option FileConfig := do
  match ← sectionValues ["store", "migrations"] (some (.table .header entries)) with
  | [store, migrations] =>
    match ← sectionValues ["path"] store,
      ← sectionValues ["directory", "extension", "table_prefix", "page_size"] migrations with
    | [path], [directory, extension, name, size] =>
      return ⟨← textEntry path, ← textEntry directory, ← textEntry extension, ← textEntry name, ← sizeEntry size⟩
    | _, _ => none
  | _ => none

def ofText (path text : String) : Except ConfigError FileConfig :=
  match (Toml.read? text).bind ofEntries with
  | some c => .ok c
  | none => .error (.invalid path)

def defaultPath : String := "tabula.toml"

def load (t : FileTree) (explicit : Option String) : Except ConfigError FileConfig :=
  let path? := match explicit with
    | some path => some path
    | none => if t.isFile defaultPath then some defaultPath else none
  match path? with
  | none => .ok empty
  | some path =>
    match t.readText path with
    | .error e => .error (.read path e)
    | .ok text => ofText path text

end FileConfig

/-! ## settings -/

structure Overrides where
  database : Option String
  directory : Option String
  deriving DecidableEq, Repr

structure Settings where
  database : String
  options : Options
  deriving DecidableEq, Repr

def Settings.defaultDatabase : String := "tabula.db"

def FileConfig.resolve (c : FileConfig) (o : Overrides) : Settings :=
  let options := Options.ofDirectory ((o.directory.or c.directory).getD Options.default.directory)
  let options := c.extension.elim options options.withExtension
  let options := c.tablePrefix.elim options options.withTablePrefix
  let options := c.pageSize.elim options options.withPageSize
  ⟨(o.database.or c.database).getD Settings.defaultDatabase, options⟩

end TableMigrations
