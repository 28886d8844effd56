import PersistedQueries.Command.Run

/-!
# The program

The program runs with the words of its command line on the files below the working directory, and
writes those that the run has changed. What packages and repositories keep there is left out. It
has no connections, so no endpoint can be reached.
-/

namespace PersistedQueries.Program

open PersistedQueries (Disk Environment Surroundings Text)

/-- The variables that set options or say how they are set. -/
def settingNames : List String :=
  ["GQL_PERSISTED_OUTPUT_PATH", "GQL_PERSISTED_ENABLED", "GQL_PERSISTED_REMOVE_SOURCE",
    "GQL_PERSISTED_ADD_TYPENAME", "GQL_PERSISTED_PURE", "GQL_PERSISTED_DEBUG", "GQL_SCHEMA",
    "GQL_INTROSPECTION_PATH", "GQL_POSSIBLE_TYPES_PATH", "GQL_MINIFIED_INTROSPECTION_PATH",
    "PYTHON_DOTENV_DISABLED"]

/-- Directories whose files are left out. -/
def leftOut : List String := ["node_modules", ".git"]

/-- The text of a file, if it can be read. -/
def fileText? (path : String) : IO (Option Text) := do
  try return some (← IO.FS.readFile path).toList catch _ => return none

/-- The variables that are set. -/
def readEnvironment : IO Environment := do
  let mut pairs := []
  for name in settingNames do
    if let some value ← IO.getEnv name then pairs := pairs ++ [(name, value)]
  return .ofList pairs

/-- What stands below a directory, by the names that lead to it from where the reading began. -/
partial def readBelow (path : String) (names : Disk.Place) : IO (List (Disk.Place × Disk.Entry)) := do
  let directory ← IO.FS.realPath path
  let mut found := []
  for entry in ← directory.readDir do
    let here := path ++ "/" ++ entry.fileName
    let place := names ++ [entry.fileName.toList]
    if ← entry.path.isDir then
      unless leftOut.contains entry.fileName do
        found := found ++ [(place, .directory)] ++ (← readBelow here place)
    else
      let octets ← IO.FS.readBinFile here
      found := found ++ [(place, .file octets.toList)]
  return found

/-- The disk with the files below the working directory. -/
def readDisk : IO Disk := do
  let working ← IO.currentDir
  let names := (Path.parts working.toString.toList).filter (!·.isEmpty)
  return .ofEntries names (← readBelow "." [])

/-- Write the files that are not as they were. -/
def writeChanges (before after : Disk) : IO Unit := do
  for (names, octets) in after.files do
    unless before.files.contains (names, octets) do
      let path := String.ofList (Path.ofParts names)
      let parent := String.ofList (Path.directory path.toList)
      unless parent.isEmpty do IO.FS.createDirAll parent
      IO.FS.writeBinFile path ⟨octets.toArray⟩

/-- Run with the words of a command line. -/
def runProgram (words : List String) : IO UInt32 := do
  let disk ← readDisk
  let environment ← readEnvironment
  let file ← fileText? ".env"
  let output ← IO.getStdout
  let isTerminal ← output.isTty
  let ended := Command.run words environment file isTerminal { disk }
  writeChanges disk ended.surroundings.disk
  IO.print ended.output.out
  IO.eprint ended.output.err
  match ended.result with
  | .ok status => return UInt32.ofNat status
  | .error fault =>
    IO.eprintln fault.message
    return 1

end PersistedQueries.Program

/-- The program. -/
def main (words : List String) : IO UInt32 := PersistedQueries.Program.runProgram words
