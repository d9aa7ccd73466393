/-
  TableMigrations.Files.Discovery — the migrations of a directory.

  A migration is a regular file whose name ends in the extension; the rest of the name, which may not be empty, is
  its id. Migrations come in the order of their file names, whatever order the directory lists them in.
-/
import TableMigrations.Files.Tree
import TableMigrations.Run

namespace TableMigrations

def joinPath (directory name : String) : String :=
  if directory = "" ∨ directory.endsWith "/" then directory ++ name else directory ++ "/" ++ name

def migrationId? (extension name : String) : Option String :=
  let (n, e) := (name.toList, extension.toList)
  if e.isSuffixOf n ∧ e.length < n.length then some (.ofList (n.take (n.length - e.length))) else none

def migrationFile? (directory extension : String) : String × Node → Option MigrationFile
  | (name, .file _) => (migrationId? extension name).map fun id => ⟨id, name, joinPath directory name⟩
  | (_, .directory) | (_, .link _) => none

def migrationFiles (directory extension : String) (entries : List (String × Node)) : List MigrationFile :=
  (entries.filterMap (migrationFile? directory extension)).mergeSort fun a b => (compare a.name b.name).isLE

/-- The migrations of a directory; a missing directory has none. -/
def discover (t : FileTree) (directory extension : String) : Except MigrateError (List MigrationFile) :=
  match t.list directory with
  | .ok entries => .ok (migrationFiles directory extension entries)
  | .error .notFound => .ok []
  | .error e => .error (.discover directory e)

def FileTree.migrations (t : FileTree) (o : Options) : Except MigrateError (List MigrationFile) :=
  discover t o.directory o.extension

end TableMigrations
