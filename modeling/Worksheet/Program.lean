import Worksheet.Command.Arguments

/-! # The program

A run of the program on a command line: what it prints, its exit code, and the folder after it. -/

namespace Worksheet.Program

open Worksheet.Command

/-- The name and the version of the program. -/
def versionLine : String := "cellgrid 0.1.0\n"

/-- How to use the program. -/
def usageText : String :=
  "Usage: cellgrid [-d]... eval EXPRESSION [--var NAME=VALUE]...\n" ++
  "       cellgrid [-d]... show FILE [--rows N] [--columns N]\n" ++
  "       cellgrid [-d]... set FILE ADDRESS TEXT [--rows N] [--columns N]\n" ++
  "       cellgrid [-d]... demo FILE [--rows N] [--columns N]\n"

/-- What a run leaves: the exit code, the bytes printed, and the message of a failed command. -/
structure Report where
  code : Nat
  printed : ByteArray
  error : Option String

/-- The report on a command line that gives no command. Help and version are answers, all else is an
error. -/
def refusal : Usage → Report
  | .version => ⟨0, Text.encode versionLine, none⟩
  | .help => ⟨0, Text.encode usageText, none⟩
  | _ => ⟨2, .empty, none⟩

/-- The report on a command. -/
def reportOf (outcome : Except Command.Error Unit) (printed : ByteArray) : Report :=
  match outcome with
  | .ok _ => ⟨0, printed, none⟩
  | .error e => ⟨1, printed, some ("Error: " ++ e.message)⟩

/-- A run of the program. -/
def run (folder : Folder) (limit : Option Nat) (arguments : List String) : Report × Folder :=
  match parse arguments with
  | .error usage => (refusal usage, folder)
  | .ok invocation =>
    let (outcome, desk) := invocation.command.run (.start folder limit)
    (reportOf outcome desk.printed, desk.folder)

end Worksheet.Program
