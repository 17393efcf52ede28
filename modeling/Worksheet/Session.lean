import Worksheet.Storage

/-! # Sessions

A session is a grid with the screen that shows its values. The screen follows the notices of
changes; where the grid gives none, an operation paints the screen itself or leaves it as it is. -/

namespace Worksheet

/-- A grid, the values on the screen row by row, the file the grid belongs to, and a message. -/
structure Session where
  grid : Grid
  screen : Array (Array String)
  file : Option String
  status : Option String
deriving DecidableEq, Repr

namespace Session

/-- The screen that shows the values of a grid. -/
def screenOf (g : Grid) : Array (Array String) :=
  Array.ofFn fun row : Fin g.rows => Array.ofFn fun column : Fin g.columns =>
    (g.cell? ⟨row, column⟩).elim "" (·.value)

/-- The session on a grid. -/
def ofGrid (g : Grid) : Session := ⟨g, screenOf g, none, none⟩

/-- The session on a blank grid. -/
def new (rows columns : Nat) : Session := ofGrid (.empty rows columns)

/-- The value on the screen at a position, empty outside the screen. -/
def shown (s : Session) (p : Position) : String := ((s.screen[p.row]?).bind (·[p.column]?)).getD ""

/-- The session with the whole screen painted anew. -/
def refresh (s : Session) : Session := { s with screen := screenOf s.grid }

/-- The session with another value on the screen at a position. Nothing is painted outside the
screen. -/
def paint (s : Session) (p : Position) (value : String) : Session :=
  { s with screen := s.screen.modify p.row (·.modify p.column fun _ => value) }

/-- The session after the notice of a change. -/
def notice (s : Session) (change : Change) : Session := s.paint change.position change.value

/-! ### Editing -/

/-- The session with a text entered at the cell with a given name. -/
def edit (s : Session) (name text : String) : Except Grid.Error Session :=
  match s.grid.place? name with
  | none => .error (.invalidReference name)
  | some p => do
    let (g, change) ← s.grid.setText p text
    let s := { s with grid := g }
    return change.elim s s.notice

/-- The session with a cell emptied. The grid gives no notice of that, so the screen is painted
here. -/
def clearCell (s : Session) (name : String) : Except Grid.Error Session := do
  let s ← s.edit name ""
  return (s.grid.place? name).elim s (s.paint · "")

/-- The session with all cells emptied. -/
def clearAll (s : Session) : Session := refresh { s with grid := s.grid.clear }

/-- The session with one row of sample content: a text in column B, and a reference to it in column
A. -/
def fillRow (s : Session) (row : Nat) : Except Grid.Error Session := do
  let number := toString (row + 1)
  let s ← s.edit ("B" ++ number) ("This is cell B" ++ number)
  s.edit ("A" ++ number) ("=B" ++ number)

/-- The session with sample content in every row, if there are two columns for it. -/
def fillDemo (s : Session) : Except Grid.Error Session :=
  if s.grid.columns < 2 then .ok s else (List.range s.grid.rows).foldlM fillRow s

/-! ### Saving and loading -/

/-- The session after an attempt to save it in a file. -/
def saved (s : Session) : Except StorageError String → Session
  | .ok file => { s with file := some file, status := some ("Saved to " ++ file) }
  | .error e => { s with status := some ("Save failed: " ++ e.message) }

/-- The message after loading. -/
def loadMessage (report : LoadReport) (file : String) : String :=
  let loaded := "Loaded " ++ toString report.applied ++ " cells from " ++ file
  if report.skipped = 0 then loaded else loaded ++ " (" ++ toString report.skipped ++ " skipped)"

/-- The session after an attempt to load a file onto its grid. The screen is painted anew in either
case. -/
def loaded (s : Session) : Except StorageError (LoadReport × String) → Session
  | .ok (report, file) =>
    refresh { s with file := some file, status := some (loadMessage report file) }
  | .error e => refresh { s with status := some ("Load failed: " ++ e.message) }

/-- The folder and the session after saving it in a file. -/
def save (s : Session) (folder : Folder) (file : String) : Folder × Session :=
  match s.grid.save folder file with
  | .ok folder => (folder, s.saved (.ok file))
  | .error e => (folder, s.saved (.error e))

/-- The session after loading a file onto its grid. -/
def load (s : Session) (folder : Folder) (file : String) : Session :=
  match s.grid.loadFile folder file with
  | .ok (g, report) => { s with grid := g }.loaded (.ok (report, file))
  | .error e => s.loaded (.error e)

end Session

end Worksheet
