/-
  TableMigrations.CommandLine.Report — what the commands print.
-/
import TableMigrations.Files.Database
import TableMigrations.Migration.Text
import TableMigrations.Operation.Json
import TableMigrations.Run

namespace TableMigrations.Report

/-! ## columns -/

def padRight (width : Nat) (s : String) : String := s ++ .ofList (List.replicate (width - s.length) ' ')

def padLeft (width : Nat) (s : String) : String := .ofList (List.replicate (width - s.length) ' ') ++ s

def unlines (ls : List String) : String := .join (ls.map (· ++ "\n"))

/-! ## sizes -/

/-- A quotient of a size with one decimal, a half to the even digit. The size counts as a double. -/
def oneDecimal (bytes unit : Nat) : String :=
  let units := unitsOf (nearestCode bytes 1)
  let tenths := roundHalfEven (10 * units) (unit <<< 1074)
  s!"{tenths / 10}.{tenths % 10}"

def formatBytes (bytes : Nat) : String :=
  if bytes < 1024 then s!"{bytes} B"
  else if bytes < 1024 * 1024 then oneDecimal bytes 1024 ++ " KB"
  else oneDecimal bytes (1024 * 1024) ++ " MB"

/-! ## runs and status -/

def summary (s : Summary) : String :=
  unlines (s.applied.map ("  applied  " ++ ·) ++
    [s!"{s.applied.length} applied, {s.skipped.length} already up to date"])

def statusHead (database directory journal : String) (size : Nat) : String :=
  unlines [s!"Database: {database} (SQLite, {journal} mode, {formatBytes size})", s!"Migrations: {directory}", ""]

def rule : String := "  " ++ .ofList (List.replicate 49 '-')

def row (name state : String) : String := "  " ++ padRight 40 name ++ " " ++ padLeft 8 state

def statusTable (found : List MigrationStatus) : String :=
  unlines ([row "Migration" "State", rule] ++
    found.map (fun m => row m.id (if m.applied then "applied" else "pending")) ++ [rule])

def statusFoot (historyTable : String) (records : Nat) (found : List MigrationStatus) : String :=
  let applied := (found.filter (·.applied)).length
  unlines [s!"  {applied} applied, {found.length - applied} pending ({historyTable}: {records} records)"]

/-! ## plans -/

def note (op : Operation) : String :=
  match op.change with
  | .deleteAll => "  (truncates outside any batch)"
  | .updateAll _ => "  (scans every row)"
  | .row .. => ""

def planLines (n : Nat) : List Operation → List String
  | [] => []
  | op :: r => s!"  {padLeft 4 (toString n)}  {op.render}{note op}" :: planLines (n + 1) r

def plan (file : String) (ops : List Operation) : String :=
  unlines ([s!"Migration: {file} ({ops.length} operations)", ""] ++ planLines 1 ops)

def planJson (ops : List Operation) : String :=
  unlines [.ofList ((Json.array (ops.map (·.toNode Json.format))).pretty 0)]

end TableMigrations.Report
