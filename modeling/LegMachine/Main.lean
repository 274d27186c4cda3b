import LegMachine.Command.ListImage
import LegMachine.Command.RunImage

/-!
# The program

`run` runs an image and `disasm` lists one; the arguments behind them are those of the tool. The
files that the arguments name are read before the tool starts.
-/

namespace LegMachine.Command

/-- The system's error as the tools report it. -/
def FileError.ofError : IO.Error → FileError
  | .noFileOrDirectory .. => .notFound
  | .inappropriateType .. => .isDirectory
  | e => .other e.toString

def fetch (path : String) : IO (Except FileError ByteArray) := do
  try return .ok (← IO.FS.readBinFile path)
  catch e => return .error (.ofError e)

def fetchAll (paths : List String) : IO Files := do
  let contents ← paths.mapM fun path => return (path, ← fetch path)
  return fun path => (contents.lookup path).getD (.error .notFound)

/-- Write the file of a report, print what it prints and give its exit code. -/
def emit (report : Report) : IO UInt32 := do
  let report ← match report.file with
    | none => pure report
    | some (path, content) =>
      try
        IO.FS.writeFile path content
        pure report
      catch e => pure (.refused (.ofError e))
  IO.print report.stdout
  IO.eprint report.stderr
  return UInt32.ofNat report.code

end LegMachine.Command

open LegMachine.Command

def main (args : List String) : IO UInt32 := do
  match args with
  | "run" :: rest =>
    let files ← fetchAll ((RunOptions.ofArguments rest).toOption.elim [] (·.paths))
    emit (runTool files rest)
  | "disasm" :: rest =>
    let files ← fetchAll ((ListOptions.ofArguments rest).toOption.elim [] (·.paths))
    emit (listTool files rest)
  | _ =>
    IO.eprintln "usage: legmachine (run | disasm) ARGUMENTS"
    return 2
