import Worksheet.Grid
import Worksheet.Markup.Text

/-! # Saved sheets

A sheet is saved as a document of records: the name of each cell that is not blank, and its text.
Values are not saved. -/

namespace Worksheet

/-- What a document says of a cell: its name, and its text if it gives one. -/
structure Record where
  name : String
  text : Option String
deriving DecidableEq, Repr

namespace Document

/-- The element that holds a text. -/
def textMarkup (text : String) : List Char :=
  "<text>".toList ++ Markup.escape text.toList ++ "</text>".toList

/-- The element of a record. Cell names need no escaping. -/
def recordMarkup (r : Record) : List Char :=
  match r.text with
  | none => "<cell name=\"".toList ++ r.name.toList ++ "\"/>".toList
  | some text =>
    "<cell name=\"".toList ++ r.name.toList ++ "\">".toList ++ textMarkup text ++ "</cell>".toList

/-- The document of the records. -/
def markup (records : List Record) : List Char :=
  if records.isEmpty then "<spreadsheet/>".toList
  else "<spreadsheet>".toList ++ records.flatMap recordMarkup ++ "</spreadsheet>".toList

end Document

namespace Grid

/-- The records of the cells that are not blank, row by row. -/
def records (g : Grid) : List Record := g.filled.map fun c => ⟨c.name, some c.text⟩

/-- The document of a grid. -/
def document (g : Grid) : String := String.ofList (Document.markup g.records)

end Grid

end Worksheet
