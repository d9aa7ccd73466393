/-
  TableMigrations.Migration.Text — a migration file's text as its operations, line by line.
-/
import TableMigrations.Operation.Notation
import TableMigrations.Text.Lines

namespace TableMigrations

def parseMigration (text : String) : Except (Nat × LineError) (List Operation) :=
  Operation.parseLines 1 (Text.lines text.toList)

end TableMigrations
