import Worksheet.Document.Loading
import Worksheet.Folder

/-! # Sheets in files -/

namespace Worksheet

/-- The reasons for which a sheet is not saved or loaded. -/
inductive StorageError where
  | file (error : FileError)
  | document
deriving DecidableEq, Repr

/-- The wording of an error. -/
def StorageError.message : StorageError → String
  | file error => error.message
  | document => "invalid sheet document"

namespace Grid

/-- The document of the grid, if it has room in the given number of bytes. -/
def documentWithin (g : Grid) (limit : Option Nat) : Except StorageError String :=
  if limit.all (g.document.utf8ByteSize ≤ ·) then .ok g.document else .error (.file .full)

/-- The folder with the grid saved in a file. -/
def save (g : Grid) (folder : Folder) (file : String) : Except StorageError Folder :=
  (folder.write file (Text.encode g.document)).mapError .file

/-- The grid with the records of a document entered. A document that is refused changes nothing. -/
def readDocument (g : Grid) (bytes : ByteArray) : Except StorageError (Grid × LoadReport) :=
  match Document.ofBytes? bytes with
  | some records => .ok (g.load records)
  | none => .error .document

/-- The grid with the records of a file entered. -/
def loadFile (g : Grid) (folder : Folder) (file : String) :
    Except StorageError (Grid × LoadReport) := do
  g.readDocument (← (folder.read file).mapError .file)

/-- A grid of the given size with the records of a file, which must be a text. -/
def openFile (folder : Folder) (file : String) (rows columns : Nat) :
    Except StorageError (Grid × LoadReport) := do
  let text ← (folder.readText file).mapError .file
  (empty rows columns).readDocument (Text.encode text)

end Grid

end Worksheet
