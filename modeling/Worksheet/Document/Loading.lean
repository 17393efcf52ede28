import Worksheet.Document.Reader

/-! # Loading records

The texts of records are entered one after the other, in the order of the document, onto the grid
that is there. A formula is therefore settled by what stands in the grid at its turn. -/

namespace Worksheet

/-- The numbers of records that were entered and that were not. -/
structure LoadReport where
  applied : Nat
  skipped : Nat
deriving DecidableEq, Repr

namespace Grid

/-- The grid with a record entered, if it has a text and names a cell of the grid. -/
def enter? (g : Grid) (r : Record) : Option Grid := do
  let text ← r.text
  let p ← g.place? r.name
  match g.setText p text with
  | .ok (g, _) => some g
  | .error _ => none

/-- One step of loading: the record is entered or passed over, and counted. -/
def loadStep (state : Grid × LoadReport) (r : Record) : Grid × LoadReport :=
  match state.1.enter? r with
  | some g => (g, { state.2 with applied := state.2.applied + 1 })
  | none => (state.1, { state.2 with skipped := state.2.skipped + 1 })

/-- The grid with the records entered, and their numbers. -/
def load (g : Grid) (records : List Record) : Grid × LoadReport :=
  records.foldl loadStep (g, ⟨0, 0⟩)

end Grid

end Worksheet
