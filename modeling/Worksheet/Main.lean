import Worksheet.Program

/-! # The command line

The file that a command works on is read before the run and, if the run has changed it, written
after it. The run itself knows only the folder that holds this one file. -/

open Worksheet

namespace Worksheet.Program

/-- The bytes of a file, none if it is not there. -/
def fileBytes? (name : String) : IO (Option ByteArray) := do
  try return some (← IO.FS.readBinFile name)
  catch
    | .noFileOrDirectory .. => return none
    | e => throw e

/-- A run on the file system. -/
def perform (arguments : List String) : IO Report := do
  match (Command.parse arguments).toOption.bind (·.command.file?) with
  | none => return (run .empty none arguments).1
  | some name =>
    let before ← fileBytes? name
    let (report, folder) :=
      run ⟨.ofList (before.toList.map (name, ·)), fun _ => true⟩ none arguments
    if let some bytes := folder.find? name then
      unless before.any (· == bytes) do IO.FS.writeBinFile name bytes
    return report

/-- The report on a run that the file system has stopped. -/
def stopped (e : IO.Error) : Report :=
  ⟨1, .empty, some ("Error: " ++ (FileError.other (toString e)).message)⟩

end Worksheet.Program

/-- Runs the program, and shows what it printed and what went wrong. -/
def main (arguments : List String) : IO UInt32 := do
  let report ← try Program.perform arguments catch e => pure (Program.stopped e)
  (← IO.getStdout).write report.printed
  if let some message := report.error then IO.eprintln message
  if report.code = 2 then IO.eprint Program.usageText
  return report.code.toUInt32
