/-
  TableMigrations.Main — the program: it reads the files that an invocation names, carries the invocation out on
  them, and does to the machine's files what that did to its own.
-/
import TableMigrations.CommandLine.Command

namespace TableMigrations.Main

def loadNode (t : FileTree) (path : String) : IO FileTree := do
  let place := System.mkFilePath [path]
  match ← (some <$> place.symlinkMetadata) <|> pure none with
  | none => return t
  | some found =>
    match found.type with
    | .file => return t.write path (.ofBytes (← IO.FS.readBinFile path))
    | .dir => return t.makeDirectory path
    | .symlink => return t.makeLink path (← (toString <$> IO.FS.realPath path) <|> pure path)
    | .other => return t

def prefixes (path : String) : List String :=
  let names := path.splitOn "/"
  (List.range names.length).map fun n => "/".intercalate (names.take (n + 1))

/-- Adds what a path leads to and what it goes through; of a directory at its end, the entries as well. -/
def load (t : FileTree) (path : String) : IO FileTree := do
  let whole ← (toString <$> IO.FS.realPath path) <|> pure path
  let t ← (prefixes path ++ prefixes whole).foldlM loadNode t
  if ← (System.mkFilePath [path]).isDir then
    (← (System.mkFilePath [path]).readDir).foldlM (fun t entry => loadNode t (joinPath path entry.fileName)) t
  else return t

def change : Location × FileTree.Change → IO Unit
  | (l, c) =>
    let path := "/" ++ "/".intercalate l
    match c with
    | .write bytes => IO.FS.writeBinFile path bytes
    | .makeDirectory => IO.FS.createDir path
    | .remove => IO.FS.removeFile path

def carryOut (i : Invocation) : IO UInt32 := do
  let here := (← IO.currentDir).toString
  let start := FileTree.bare ((FileTree.names here).filter (· != ""))
  let t ← i.firstPaths.foldlM load start
  let t ← (i.furtherPaths t).foldlM load t
  let (output, after) := i.perform t
  (t.changes after).forM change
  (← IO.getStdout).putStr output.stdout
  (← IO.getStderr).putStr output.stderr
  return output.code.toUInt32

end TableMigrations.Main

def main (args : List String) : IO UInt32 := TableMigrations.Main.carryOut (.ofArguments args)
