import Worksheet.Table
import Worksheet.Text.Utf8

/-! # Folders

A folder holds files by name, as bytes. Not every name can be given to a file in it: some lead into
folders that are not there. -/

namespace Worksheet

/-- The files of a folder, and the names that a file in it may have. -/
structure Folder where
  files : Table ByteArray
  admits : String → Bool

/-- The reasons for which a file is not read or written. -/
inductive FileError where
  | notFound
  | notText
  | full
  | other (reason : String)
deriving DecidableEq, Repr

/-- The wording of an error. Only a reason that is given is worth telling. -/
def FileError.message : FileError → String
  | other reason => "i/o failure: " ++ reason
  | _ => "i/o failure"

namespace Folder

/-- The folder without files, in which there are no other folders. -/
def empty : Folder := ⟨.empty, fun name => !name.isEmpty && !name.toList.contains '/'⟩

/-- The bytes of a file. -/
def find? (f : Folder) (name : String) : Option ByteArray := f.files.find? name

/-- The bytes of a file that must be there. -/
def read (f : Folder) (name : String) : Except FileError ByteArray :=
  match f.find? name with
  | some bytes => .ok bytes
  | none => .error .notFound

/-- The text of a file that must be there. -/
def readText (f : Folder) (name : String) : Except FileError String := do
  match Text.decode? (← f.read name) with
  | some text => .ok text
  | none => .error .notText

/-- The folder with a file of the given bytes, whatever it held before. -/
def write (f : Folder) (name : String) (bytes : ByteArray) : Except FileError Folder :=
  if f.admits name then .ok { f with files := f.files.insert name bytes } else .error .notFound

/-! ### What writing changes -/

theorem find?_write {f f' : Folder} {name : String} {bytes : ByteArray}
    (h : f.write name bytes = .ok f')
    (key : String) : f'.find? key = if key = name then some bytes else f.find? key := by
  unfold write at h
  split at h
  · cases h; exact Table.find?_insert f.files name key bytes
  · cases h

end Folder

end Worksheet
