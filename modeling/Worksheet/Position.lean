import Worksheet.Column

/-! # Positions and their names

A position is a row and a column, both counted from 0. Its name is the column's letters and then the
row counted from 1, so that row 0 of column 1 is `B1`. -/

namespace Worksheet

open Worksheet.Text

/-- The place of a cell, counted from 0. -/
structure Position where
  row : Nat
  column : Nat
deriving DecidableEq, Repr

namespace Position

/-- The name of a position. -/
def name (p : Position) : String :=
  String.ofList (Column.letters (p.column + 1) ++ digitsOf (p.row + 1))

/-- The position with a given name: letters, in either case, and a row number from 1, where leading
zeros do not count. Both numbers fit in a word. -/
def ofName? (name : String) : Option Position := do
  let cs := name.toList
  let column ← Column.number? (cs.takeWhile Char.isAlpha)
  let row ← word? (cs.dropWhile Char.isAlpha)
  if row = 0 then none else some ⟨row - 1, column - 1⟩

/-- The position that a formula refers to: one column letter and a row number from 1. Columns after
the 26th cannot be referred to. -/
def ofReference? : List Char → Option Position
  | [] => none
  | c :: digits => do
    let row ← word? digits
    if c.isAlpha && row ≠ 0 then some ⟨row - 1, Column.digit c - 1⟩ else none

/-- The place in words, both numbers counted from 1. -/
def describe (p : Position) : String :=
  "row " ++ toString (p.row + 1) ++ ", column " ++ toString (p.column + 1)

end Position

end Worksheet
