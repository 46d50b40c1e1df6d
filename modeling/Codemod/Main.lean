/-
The program.

The files below the working folder are read, the command line is carried
out on them, and the files that it changed are written.
-/
import Codemod.CommandLine.Run
import Codemod.Document.Json

namespace Codemod.Main

/-- The variables of the environment that are looked at. -/
def variableNames : List String := [
  "NATIVIZE_FACTORY_NAMES", "NATIVIZE_ENABLED_GROUPS", "NATIVIZE_DISABLED_RULES",
  "NATIVIZE_MAX_PASSES", "NATIVIZE_JOBS", "NATIVIZE_MAX_FILE_SIZE"]

/-- Reads an entry of a folder with all that is below it. -/
partial def readEntry (e : IO.FS.DirEntry) : IO (String × Entry) := do
  if ← e.path.isDir then
    return (e.fileName, .folder (← (← e.path.readDir).toList.mapM readEntry))
  else
    return (e.fileName, .file (← IO.FS.readBinFile e.path).toList)

/-- Reads the working folder. -/
def readStore : IO Store := do
  return ⟨← (← (← IO.currentDir).readDir).toList.mapM readEntry⟩

/-- Reads the environment. -/
def readEnvironment : IO Config.Environment := do
  let values ← variableNames.mapM fun name => do return (name, ← IO.getEnv name)
  return values.filterMap fun (name, v) => v.map (name, ·)

/-- Writes the files in which two stores differ. -/
def writeChanges (before after : Store) : IO Unit := do
  for (l, content) in after.files do
    if before.files.lookup l != some content then
      IO.FS.writeBinFile ("/".intercalate l) (ByteArray.mk content.toArray)

/-- Prints what is to be printed. -/
def print : CommandLine.Printed → IO Unit
  | .nothing => return
  | .help => IO.println "usage: nativize [options] \x7bupgrade,check,diff,rules,config\x7d ..."
  | .text t => IO.print t.display
  | .document v => IO.println (Json.write false v).display

end Codemod.Main

open Codemod in
/-- Runs the program on its arguments. -/
def main (args : List String) : IO UInt32 := do
  let store ← Main.readStore
  match CommandLine.run store (← Main.readEnvironment) args with
  | .error f =>
    IO.eprintln f.message
    return 1
  | .ok outcome =>
    Main.writeChanges store outcome.store
    Main.print outcome.printed
    return outcome.exitCode.toUInt32
