/-
  TableMigrations.Options — how migrations are found and carried out.
-/
import TableMigrations.Plan

namespace TableMigrations

structure Options where
  directory : String
  extension : String
  tablePrefix : Option String
  pageSize : Nat
  maxBatchSize : Nat
  deriving DecidableEq, Repr

namespace Options

def default : Options := ⟨"migrations", ".mig", none, 1000, maxBatchActions⟩

def ofDirectory (directory : String) : Options := { default with directory }

/-! ## settings in their proper range -/

/-- An extension starts with a dot, which need not be given. -/
def withExtension (o : Options) (extension : String) : Options :=
  { o with extension := if extension.startsWith "." then extension else "." ++ extension }

def withTablePrefix (o : Options) (name : String) : Options :=
  { o with tablePrefix := if name = "" then none else some name }

def withPageSize (o : Options) (n : Nat) : Options := { o with pageSize := max n 1 }

def withMaxBatchSize (o : Options) (n : Nat) : Options := { o with maxBatchSize := max 1 (min n maxBatchActions) }

/-! ## what follows from them -/

def historyTable (o : Options) : String := o.tablePrefix.getD "" ++ "MigrationHistories"

/-- The limits of an execution, whatever was set. -/
def limits (o : Options) : Limits := .within o.maxBatchSize o.pageSize

end Options

end TableMigrations
