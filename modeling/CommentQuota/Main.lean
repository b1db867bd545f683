/-
  CommentQuota.Main — the program.

  Loads what the paths of a run lead to, makes the run, writes what it changed, and prints its output
  and its records.
-/

import CommentQuota.CommandLine.Command

namespace CommentQuota.Main

/-- A location as the file system names it. -/
def absolute (l : Location) : String := "/" ++ "/".intercalate l

/-- What stands at a location, if anything. -/
def load (l : Location) : IO (Option Entry) := do
  try
    return some (.file (← IO.FS.readBinFile (absolute l)).toList)
  catch
    | .noFileOrDirectory _ _ _ => return none
    | _ => return some .directory

/-- Loads the locations on the way of a path, up to a file or to one where nothing stands. -/
def loadWay (s : Store) (way : List Location) : IO Store := do
  let mut s := s
  for l in way do
    if l ≠ [] then
      match ← load l with
      | some .directory => s := s.put l .directory
      | some e => return s.put l e
      | none => return s
  return s

/-- The store that a run on some paths starts with. -/
def loadStore (paths : List Path) : IO Store := do
  let home := (Path.ofString (toString (← IO.currentDir))).names
  let mut s : Store := ⟨home, []⟩
  for p in paths do
    s ← loadWay s (List.range (home.length + 1) |>.map home.take)
    s ← loadWay s (p.way home)
  return s

/-- Puts a file in place of whatever file stands at a location. -/
def store (l : Location) (bytes : Bytes) : IO Unit := do
  let fresh := absolute l ++ ".new"
  IO.FS.writeBinFile fresh (ByteArray.mk bytes.toArray)
  IO.FS.rename fresh (absolute l)

/-- Writes what a run changed. -/
def writeStore (before after : Store) : IO Unit := do
  for (l, e) in after.entries.reverse do
    if before.lookup l ≠ some e then
      match e with
      | .directory => IO.FS.createDirAll (absolute l)
      | .file bytes => store l bytes
  for (l, _) in before.entries do
    if (after.lookup l).isNone then
      IO.FS.removeFile (absolute l)

def usage : String :=
  "usage: comment-density [-h] -l LINE [--settings SETTINGS] [--min-ratio MIN_RATIO]\n" ++
  "                       [--comment-value COMMENT_VALUE] [--policy NAME] [--insert-mode NAME]\n" ++
  "                       [--dry-run] [--diff] [--json] [--backup-dir BACKUP_DIR] [-v] [-D] [--quiet]\n" ++
  "                       file"

/-- The environment variables that hold settings. -/
def variableNames : List String :=
  ["COMMENT_DENSITY_MIN_RATIO", "COMMENT_DENSITY_COMMENT_VALUE", "COMMENT_DENSITY_POLICY",
   "COMMENT_DENSITY_INSERT_MODE"]

/-- Makes a run and leaves its effects. -/
def run (arguments : List String) : IO UInt32 := do
  let paths := match readOptions arguments with
    | .ok o => o.paths
    | .error _ => []
  let before ← loadStore paths
  let values ← variableNames.mapM fun name => do return (name, ← IO.getEnv name)
  let environment (name : String) : Option String := (values.lookup name).join
  let result := command ⟨before, environment, sourceParser⟩ arguments
  writeStore before result.store
  match result.ending with
  | .stopped .help =>
    IO.println usage
    return 0
  | .stopped stop =>
    IO.eprintln usage
    IO.eprintln stop.message
    return UInt32.ofNat stop.exitCode
  | .finished exitCode output journal =>
    for r in journal do
      IO.eprintln r.line
    IO.print (String.ofList output)
    return UInt32.ofNat exitCode
  | .broken e =>
    IO.eprintln e.message
    return 1

end CommentQuota.Main

def main (arguments : List String) : IO UInt32 := CommentQuota.Main.run arguments
