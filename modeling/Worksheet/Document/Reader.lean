import Worksheet.Document.Record
import Worksheet.Markup.Ignored

/-! # Reading documents

The records of a document are the children `cell` of its root, whatever the root is called. They are
neighbours of one name: nothing but white space and declarations may stand between two of them, and
if one is qualified, all are. A record has a name, which is an attribute `name` or a child `@name`,
and at most one child `text`. These children have no child elements, unless the text is said to have
no content; other parts are ignored. A document is read as a whole or refused. -/

namespace Worksheet.Document

open Text Markup

/-- The local part of the name of an element, if it is text. -/
def localName? (name : List Symbol) : Option String :=
  (characters? (localPart name)).map String.ofList

/-! ### Records -/

/-- What has been read of a record. A text that has been read may be one without content. -/
structure Draft where
  name : Option String
  text : Option (Option String)
deriving DecidableEq, Repr

namespace Draft

/-- The draft with a name, if it had none. -/
def withName? (d : Draft) (name : String) : Option Draft :=
  if d.name.isSome then none else some { d with name := some name }

/-- The draft with a text, if it had none. -/
def withText? (d : Draft) (text : Option String) : Option Draft :=
  if d.text.isSome then none else some { d with text := some text }

/-- The record of a draft with a name. -/
def record? (d : Draft) : Option Record := d.name.map fun name => ⟨name, d.text.join⟩

end Draft

/-- The bindings in force when an element is looked at, given those within it. Those of its first
child are in view as well if it begins with one. -/
def inView? (within : Scopes) : List Node → Option Scopes
  | .element _ attributes _ :: _ => within.enter? attributes
  | _ => some within

/-- The draft of a record with the given attributes, what its children say added, and the bindings
in force behind the record, given those within it. -/
def readChildren? (attributes : List Symbol) : Scopes → Draft → List Node → Option (Draft × Scopes)
  | s, d, [] => some (d, s.tail)
  | s, d, .element name own children :: ns => do
    let within ← s.enter? own
    match ← localName? name with
    | "@name" => do
      let name ← text? children
      readChildren? attributes s (← d.withName? (String.ofList name)) ns
    | "text" => do
      let view ← inView? within children
      if view.isNil attributes || view.isNil own then
        let behind ← within.ignore? name false children
        readChildren? attributes behind (← d.withText? none) ns
      else
        let text ← text? children
        readChildren? attributes s (← d.withText? (some (String.ofList text))) ns
    | _ => do
      let behind ← within.ignore? name false children
      readChildren? attributes behind d ns
  | s, d, n :: ns => do
    let _ ← n.chars?
    readChildren? attributes s d ns

/-- The record of an element with the given attributes and children, and the bindings in force
behind it, given those within it. -/
def record? (within : Scopes) (attributes : List Symbol) (children : List Node) :
    Option (Record × Scopes) := do
  let name ← attributeValue? (← attributes? attributes) "name"
  let (draft, behind) ← readChildren? attributes within ⟨name.map String.ofList, none⟩ children
  return (← draft.record?, behind)

/-! ### Rows of records -/

/-- Where the children of a root are being read: before its records, among records of a given name,
or behind them. -/
inductive Place where
  | before
  | among (name : List Symbol)
  | behind
deriving DecidableEq, Repr

namespace Place

/-- The place behind something that is neither white space nor a record. -/
def interrupted : Place → Place
  | before => before
  | _ => behind

/-- The place within the row of records if an element with a given name is one of them, and none if
it is something else. A record of another name, or out of the row, is refused. -/
def record? (p : Place) (name : List Symbol) : Option (Option Place) :=
  if p = among name then some (some p)
  else do
    if (← localName? name) = "cell" then
      if p = before then some (some (among name)) else none
    else some none

end Place

/-- The records among the children of a root, given the bindings in force. -/
def records? : Scopes → Place → List Node → Option (List Record)
  | _, _, [] => some []
  | s, p, .element name attributes children :: ns => do
    let within ← s.enter? attributes
    match ← p.record? name with
    | some p =>
      let (r, behind) ← Document.record? within attributes children
      return r :: (← records? behind p ns)
    | none => records? (← within.ignore? name false children) p.interrupted ns
  | s, p, n :: ns => do
    let chars ← n.chars?
    records? s (if chars.all isSpace then p else p.interrupted) ns

/-- The records of a root element. -/
def ofRoot? : Node → Option (List Record)
  | .element _ attributes children => do
    let s ← Scopes.enter? [] attributes
    let _ ← keyed? (← attributes? attributes)
    records? s .before children
  | _ => none

/-- The symbols without the mark that tells the order of the bytes. -/
def dropMark : List Symbol → List Symbol
  | .char '\uFEFF' :: s => s
  | s => s

/-- The records of a document given as symbols. -/
def ofSymbols? (s : List Symbol) : Option (List Record) :=
  (root? (tokens (dropMark s))).bind ofRoot?

/-- The records of a document given as bytes. Damage does no harm where nothing is read. -/
def ofBytes? (bytes : ByteArray) : Option (List Record) := ofSymbols? (symbols bytes)

end Worksheet.Document
