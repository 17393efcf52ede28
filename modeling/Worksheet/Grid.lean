import Worksheet.Cell

/-! # The grid

A grid of fixed size whose cells stand row by row in one array. Entering a text settles the value of
its cell at once: a text `=B1` takes the text, not the value, of the cell it refers to, and any
other text is its own value. The value is not settled again when that other cell changes. -/

namespace Worksheet

/-- A grid of cells, row by row. -/
structure Grid where
  rows : Nat
  columns : Nat
  cells : Array Cell
deriving DecidableEq, Repr

/-- The notice that the value of a cell was settled anew. -/
structure Change where
  position : Position
  value : String
deriving DecidableEq, Repr

/-- The name of the cell that a notice is about. -/
def Change.name (change : Change) : String := change.position.name

namespace Grid

/-- The number of rows if none is asked for. -/
def defaultRows : Nat := 50

/-- The number of columns if none is asked for. -/
def defaultColumns : Nat := 26

/-- The grid of blank cells. -/
def empty (rows columns : Nat) : Grid :=
  ⟨rows, columns, Array.ofFn fun i : Fin (rows * columns) => .blank ⟨i / columns, i % columns⟩⟩

/-- The position lies inside the grid. -/
def Contains (g : Grid) (p : Position) : Prop := p.row < g.rows ∧ p.column < g.columns

instance (g : Grid) (p : Position) : Decidable (g.Contains p) := inferInstanceAs (Decidable (_ ∧ _))

/-- The place of a position in the array of cells. -/
def index (g : Grid) (p : Position) : Nat := p.row * g.columns + p.column

/-- The cell at a position, if it lies inside the grid. -/
def cell? (g : Grid) (p : Position) : Option Cell :=
  if g.Contains p then g.cells[g.index p]? else none

/-- The position inside the grid that a name denotes. -/
def place? (g : Grid) (name : String) : Option Position :=
  (Position.ofName? name).filter (g.Contains ·)

/-- The cell with a given name. -/
def cellNamed? (g : Grid) (name : String) : Option Cell := (g.place? name).bind g.cell?

/-- The cells that are not blank, row by row. -/
def filled (g : Grid) : List Cell := g.cells.toList.filter fun c => !c.isBlank

/-- The error of an address that names no cell of the grid. -/
inductive Error where
  | invalidReference (address : String)
deriving DecidableEq, Repr

/-- The wording of an error. -/
def Error.message : Error → String
  | invalidReference address => "invalid cell reference: " ++ address

/-! ### Values -/

/-- The cell that the text refers to, if it is a formula and the cell exists. -/
def target? (g : Grid) (text : String) : Option Cell :=
  match text.toList with
  | '=' :: reference => (Position.ofReference? reference).bind g.cell?
  | _ => none

/-- The value that a text has in the grid. -/
def valueOf (g : Grid) (text : String) : String :=
  match g.target? text with
  | some target => target.text
  | none => text

/-! ### Editing -/

/-- The grid with the cell at a position changed. -/
def modify (g : Grid) (p : Position) (f : Cell → Cell) : Grid :=
  { g with cells := g.cells.modify (g.index p) f }

/-- The grid with a text entered at a position, and the notice of the value settled for it. Entering
the text that is there already does nothing, and of an empty text no notice is given. The text
stands in the grid before its value is settled, so that a cell may refer to itself. -/
def setText (g : Grid) (p : Position) (text : String) : Except Error (Grid × Option Change) :=
  match g.cell? p with
  | none => .error (.invalidReference p.describe)
  | some cell =>
    if cell.text = text then .ok (g, none)
    else
      let entered := g.modify p fun c => { c with text := text }
      let value := entered.valueOf text
      .ok (entered.modify p fun c => { c with value := value },
        if text = "" then none else some ⟨p, value⟩)

/-- The grid with a text entered at the cell with a given name. -/
def setTextNamed (g : Grid) (name text : String) : Except Error (Grid × Option Change) :=
  match Position.ofName? name with
  | none => .error (.invalidReference name)
  | some p => g.setText p text

/-- The grid with one text taken away. -/
def clearCell (g : Grid) (p : Position) : Except Error (Grid × Option Change) := g.setText p ""

/-- The grid with all texts taken away. -/
def clear (g : Grid) : Grid := { g with cells := g.cells.map Cell.clear }

end Grid

end Worksheet
