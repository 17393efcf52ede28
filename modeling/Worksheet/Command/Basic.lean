import Worksheet.Calculator
import Worksheet.Session

/-! # Commands

A command works on the files of a folder and on an output that may take only so many bytes. Both
outlive a failure: what has been stored and printed before it stays. -/

namespace Worksheet

/-- The size of a grid. -/
structure GridSize where
  rows : Nat
  columns : Nat
deriving DecidableEq, Repr

/-- What can be asked for: the value of an expression, the cells of a saved sheet, an edit of one,
and a sheet of sample content. -/
inductive Command where
  | evaluate (expression : String) (bindings : List String)
  | list (file : String) (size : GridSize)
  | edit (file address text : String) (size : GridSize)
  | sample (file : String) (size : GridSize)
deriving DecidableEq, Repr

namespace Command

/-- The file that a command works on. -/
def file? : Command → Option String
  | evaluate .. => none
  | list file _ | edit file _ _ _ | sample file _ => some file

/-- The reasons for which a command fails. -/
inductive Error where
  | reference (error : Grid.Error)
  | expression (error : Expr.Error)
  | storage (error : StorageError)
  | invalidBinding (argument : String)
  | output
deriving DecidableEq, Repr

/-- The wording of an error. -/
def Error.message : Error → String
  | reference error => error.message
  | expression error => error.message
  | storage error => error.message
  | invalidBinding argument => "invalid variable binding '" ++ argument ++ "', expected NAME=VALUE"
  | output => "could not write output"

/-- What a command works on: the folder, what has been printed, and how many bytes may be. -/
structure Desk where
  folder : Folder
  printed : ByteArray
  limit : Option Nat

/-- The desk before a command. -/
def Desk.start (folder : Folder) (limit : Option Nat) : Desk := ⟨folder, .empty, limit⟩

/-- A step of a command. -/
abbrev Action (α : Type) := EStateM Error Desk α

/-- The step that has a result or fails, and changes nothing. -/
def settle {ε α : Type} (wrap : ε → Error) : Except ε α → Action α
  | .ok a => pure a
  | .error e => throw (wrap e)

/-- Prints a text, or as much of it as the output takes. -/
def print (text : String) : Action Unit := do
  let desk ← get
  let printed := desk.printed ++ Text.encode text
  if desk.limit.all (printed.size ≤ ·) then set { desk with printed := printed }
  else
    set { desk with printed := printed.extract 0 (desk.limit.getD printed.size) }
    throw .output

/-- Prints a line. -/
def printLine (text : String) : Action Unit := print (text ++ "\n")

/-- Prints the message of a session, if it has one. -/
def printStatus (s : Session) : Action Unit :=
  match s.status with
  | some message => printLine message
  | none => pure ()

/-! ### Evaluating -/

/-- The name and the value of a binding `NAME=VALUE`. White space around either does not count. -/
def parseBinding (argument : String) : Except Error (String × Float) :=
  match argument.toList.dropWhile (· != '=') with
  | _ :: value =>
    match Decimal.read? (Text.trim value) with
    | some x => .ok (String.ofList (Text.trim (argument.toList.takeWhile (· != '='))), x)
    | none => .error (.invalidBinding argument)
  | [] => .error (.invalidBinding argument)

/-- The calculator with one more binding. -/
def bindArgument (c : Calculator) (argument : String) : Except Error Calculator := do
  let (name, value) ← parseBinding argument
  (c.assign name value).mapError .expression

/-- The text of the value of an expression. -/
def valueText : Option Float → String
  | some x => Decimal.write x
  | none => "(empty)"

/-- Prints the value of an expression under the bindings, later ones over earlier ones. -/
def evaluateExpression (expression : String) (bindings : List String) : Action Unit := do
  let c ← settle .expression (Calculator.compile expression)
  let c ← settle id (bindings.foldlM bindArgument c)
  printLine (valueText (← settle .expression c.evaluate))

/-! ### Sheets -/

/-- The session on a saved sheet. -/
def loadSheet (file : String) (size : GridSize) : Action Session := do
  let (g, report) ← settle .storage ((Grid.empty size.rows size.columns).loadFile
    (← get).folder file)
  return (Session.ofGrid g).loaded (.ok (report, file))

/-- The session on a saved sheet, or on a blank one if there is no such file. -/
def openSheet (file : String) (size : GridSize) : Action Session := do
  match (← get).folder.find? file with
  | some _ => loadSheet file size
  | none => return Session.new size.rows size.columns

/-- Saves the sheet of a session, and prints that it was done. -/
def saveSheet (s : Session) (file : String) : Action Unit := do
  let desk ← get
  let folder ← settle .storage (s.grid.save desk.folder file)
  set { desk with folder := folder }
  printStatus (s.saved (.ok file))

/-- The line of a cell: its name, its text, and what is shown for it. -/
def cellLine (s : Session) (c : Cell) : String :=
  c.name ++ "\t" ++ c.text ++ "\t" ++ s.shown c.position

/-- Prints the cells of a saved sheet that are not blank, row by row. -/
def listSheet (file : String) (size : GridSize) : Action Unit := do
  let s ← loadSheet file size
  s.grid.filled.forM fun c => printLine (cellLine s c)
  printStatus s

/-- Enters one text in a saved sheet, or in a blank one if there is no such file, and saves it. -/
def editSheet (file address text : String) (size : GridSize) : Action Unit := do
  let s ← openSheet file size
  saveSheet (← settle .reference (s.edit address text)) file

/-- Saves a sheet of sample content. -/
def sampleSheet (file : String) (size : GridSize) : Action Unit := do
  saveSheet (← settle .reference (Session.new size.rows size.columns).fillDemo) file

/-- The steps of a command. -/
def action : Command → Action Unit
  | evaluate expression bindings => evaluateExpression expression bindings
  | list file size => listSheet file size
  | edit file address text size => editSheet file address text size
  | sample file size => sampleSheet file size

/-- The outcome of a command, and the desk after it. -/
def run (c : Command) (desk : Desk) : Except Error Unit × Desk :=
  match c.action.run desk with
  | .ok _ desk => (.ok (), desk)
  | .error e desk => (.error e, desk)

end Command

end Worksheet
