import JobConfig.CommandLine.Run

/-!
# The program

The command line as a program: it reads the project directory, runs the command and shows its
report. The exit code is 1 if the command fails, and 2 if the arguments are none.
-/

namespace JobConfig.Main

open CommandLine

/-- What stands at a path, with the entries of folders down to a depth. -/
def readTree : (depth : Nat) → (path : String) → IO FileTree
  | 0, path => do
    let real ← IO.FS.realPath path
    if ← real.isDir then return .emptyFolder
    let bytes ← IO.FS.readBinFile real
    return .file (String.fromUTF8? bytes)
  | depth + 1, path => do
    let real ← IO.FS.realPath path
    if ← real.isDir then
      let mut entries := []
      for e in ← real.readDir do
        let below ← try readTree depth (path ++ "/" ++ e.fileName) catch _ => pure (.file none)
        entries := (e.fileName, below) :: entries
      return .folder entries
    else
      let bytes ← IO.FS.readBinFile real
      return .file (String.fromUTF8? bytes)

/-- The project directory below a root, if there is one. -/
def readProject (root : String) : IO (Option FileTree) :=
  try some <$> readTree 2 (root ++ "/" ++ projectFolder) catch _ => return none

/-- Writes the file that a report asks for; whether that went well. -/
def writeOutput (r : Report) : IO Bool := do
  match r.written with
  | none => return true
  | some (path, text) =>
    try
      IO.FS.writeFile path text
      return true
    catch _ => return false

def showReport (r : Report) : IO UInt32 := do
  for w in r.warnings do
    IO.eprintln ("WARN " ++ w)
  IO.print r.stdout
  IO.eprint r.stderr
  match r.status with
  | .ok _ => return 0
  | .error f =>
    IO.eprintln ("Error: " ++ f.message)
    return 1

def runCommand (c : Command) : IO UInt32 := do
  let directory ← readProject c.root
  let surroundings (writable : Bool) : Surroundings :=
    { directory := fun _ => directory,
      base := fun root => root ++ "/" ++ projectFolder ++ "/",
      writable := fun _ => writable }
  let report := c.run (surroundings true)
  if ← writeOutput report then showReport report
  else showReport (c.run (surroundings false))

end JobConfig.Main

def main (args : List String) : IO UInt32 := do
  match JobConfig.CommandLine.Command.ofArguments args with
  | .ok c => JobConfig.Main.runCommand c
  | .error .help =>
    IO.println JobConfig.CommandLine.UsageError.help.message
    return 0
  | .error e =>
    IO.eprintln ("error: " ++ e.message)
    return 2
