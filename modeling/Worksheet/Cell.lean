import Worksheet.Position

/-! # Cells -/

namespace Worksheet

/-- A cell: its place, the text entered, and the value shown for it. -/
structure Cell where
  position : Position
  text : String
  value : String
deriving DecidableEq, Repr

namespace Cell

/-- The blank cell at a position. -/
def blank (p : Position) : Cell := ⟨p, "", ""⟩

/-- The name of a cell, that of its position. -/
def name (c : Cell) : String := c.position.name

/-- A cell without text and value. -/
def isBlank (c : Cell) : Bool := c.text == "" && c.value == ""

/-- The cell without text and value. A cell without text stays as it is. -/
def clear (c : Cell) : Cell := if c.text = "" then c else blank c.position

@[simp] theorem isBlank_blank (p : Position) : (blank p).isBlank = true := rfl

@[simp] theorem position_clear (c : Cell) : c.clear.position = c.position := by
  unfold clear; split <;> rfl

@[simp] theorem text_clear (c : Cell) : c.clear.text = "" := by
  unfold clear; split <;> simp_all [blank]

end Cell

end Worksheet
