import OutOfLine.Command

/-! The program: takes in the files that a command may read, runs the command on them, and carries out
what it changes and prints. -/

namespace OutOfLine

namespace Program

/-- What stands at a path on disk. What exists and cannot be read as a file is a directory. -/
def entryOnDisk (path : String) : IO (Option Entry) := do
  try
    let text := String.fromUTF8? (← IO.FS.readBinFile path)
    return some ((text.map fun text => Entry.text text.toList).getD .binary)
  catch _ =>
    try
      let _ ← IO.FS.realPath path
      return some .directory
    catch _ => return none

/-- Whether a file on disk can be written. -/
def isWritable (path : String) : IO Bool := do
  try
    let _ ← IO.FS.Handle.mk path .append
    return true
  catch _ => return false

/-- The part of the disk that paths lead through. -/
def takeIn (paths : List Text) : IO FileSystem := do
  let mut files := []
  let mut locked := []
  for path in paths.flatMap FileSystem.waypoints do
    let some entry ← entryOnDisk (String.ofList path) | continue
    files := (path, entry) :: files
    if entry ≠ .directory then
      unless ← isWritable (String.ofList path) do
        locked := path :: locked
  return .ofFiles files locked

/-- The paths that a command line is about. -/
def pathsOf (arguments : List Text) : IO (List Text) := do
  let .ok invocation := CommandLine.read arguments | return []
  let configPath := invocation.config.getD Command.defaultConfigPath
  let fs ← takeIn [configPath]
  let config := (Command.loadConfig ConfigFile.readPlain fs invocation.config).run.value.toOption.getD {}
  return configPath :: invocation.command.files config

def run (arguments : List Text) : IO UInt32 := do
  let paths ← pathsOf arguments
  let fs ← takeIn paths
  let outcome := runCommandLine fs arguments
  for path in paths do
    if let .ok text := outcome.files.read path then
      if (fs.read path).toOption ≠ some text then
        IO.FS.writeFile (String.ofList path) (String.ofList text)
  for event in outcome.log do
    IO.eprintln event.line
  IO.print outcome.output.print
  IO.eprint (outcome.errors.getD "")
  return outcome.exitCode.toUInt32

end Program

end OutOfLine

def main (arguments : List String) : IO UInt32 :=
  OutOfLine.Program.run (arguments.map String.toList)
