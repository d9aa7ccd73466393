/-
  TableMigrations.Files.Database — databases in the tree of files.
-/
import TableMigrations.Files.Engine
import TableMigrations.Store.Durable
import TableMigrations.Store.Sqlite

namespace TableMigrations

abbrev Database := SqliteStore Files.engine

namespace Database

def inMemory (t : FileTree) : Database := ⟨⟨.volatile t .memory (some .empty), .absent⟩⟩

def tree (d : Database) : FileTree := Handle.tree d.connection

def withTree (t : FileTree) (d : Database) : Database := ⟨Handle.withTree t d.connection⟩

def journal (d : Database) : JournalMode := Handle.journal d.connection

def openAt (t : FileTree) (address : String) (wanted : JournalMode) : Except (StoreError × FileTree) Database :=
  SqliteStore.openWithConfig (E := Files.engine) t address { SqliteConfig.default with journal := wanted }

def reopen (d : Database) (address : String) (wanted : JournalMode) : Except (StoreError × FileTree) Database :=
  openAt (SqliteStore.close d) address wanted

def decodeRow (r : RowAddress × ByteArray) : Except StoreError (RowAddress × Properties) :=
  (SqliteStore.decode Files.engine r.1.key r.2).map fun e => (r.1, e.properties)

def relations (d : Database) : Except StoreError DurableStore × Database :=
  d.on do
    let r ← SqliteStore.ask (E := Files.engine) Handle.current.on
    let rows : Except StoreError (List (RowAddress × Properties)) := r.rows.entries.mapM decodeRow
    return ⟨r.names, .ofList (← rows)⟩

end Database

end TableMigrations
