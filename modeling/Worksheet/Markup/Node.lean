import Worksheet.Markup.Token

/-! # The tree of a document

A document has one root element. White space, comments and declarations may stand before it, and
whatever follows its end is not looked at. Text and references are kept as they are written, for
what stands in a part of no interest need not be text nor stand for anything. -/

namespace Worksheet.Markup

open Text

/-- A part of a document. -/
inductive Node where
  | text (symbols : List Symbol)
  | reference (name : List Symbol)
  | declaration
  | element (name attributes : List Symbol) (children : List Node)

/-- An element whose end has not been reached, with the children read so far, the last one first. -/
structure OpenElement where
  name : List Symbol
  attributes : List Symbol
  children : List Node

namespace OpenElement

/-- The element with one more child. -/
def add (e : OpenElement) (child : Node) : OpenElement := { e with children := child :: e.children }

/-- The element at its end. -/
def node (e : OpenElement) : Node := .element e.name e.attributes e.children.reverse

end OpenElement

/-- The root of a document, given the innermost element that is open, the ones around it, and the
tokens that follow. Every element ends with its own name. -/
def close? : OpenElement → List OpenElement → List Token → Option Node
  | _, _, [] => none
  | _, _, .malformed :: _ => none
  | inner, outer, .text symbols :: ts => close? (inner.add (.text symbols)) outer ts
  | inner, outer, .reference name :: ts => close? (inner.add (.reference name)) outer ts
  | inner, outer, .declaration :: ts => close? (inner.add .declaration) outer ts
  | inner, outer, .opening name attributes :: ts =>
    close? ⟨name, attributes, []⟩ (inner :: outer) ts
  | inner, outer, .closing name :: ts =>
    if name = inner.name then
      match outer with
      | [] => some inner.node
      | parent :: outer => close? (parent.add inner.node) outer ts
    else none

/-! ### Text of nodes -/

/-- The text of a stretch between tags. -/
def textOf? (symbols : List Symbol) : Option (List Char) := (characters? symbols).map unifyLines

/-- The text that a reference stands for. -/
def referenceText? (name : List Symbol) : Option (List Char) :=
  ((characters? name).bind entity?).map ([·])

/-- The text that a node stands for. A declaration stands for none, and an element has no text of
its own. -/
def Node.chars? : Node → Option (List Char)
  | text symbols => textOf? symbols
  | reference name => referenceText? name
  | declaration => some []
  | element .. => none

/-- The text of an element without child elements. -/
def text? (children : List Node) : Option (List Char) :=
  (children.mapM Node.chars?).map List.flatten

/-- The root of a document. -/
def root? : List Token → Option Node
  | .opening name attributes :: ts => close? ⟨name, attributes, []⟩ [] ts
  | .text symbols :: ts => if (textOf? symbols).any (·.all isSpace) then root? ts else none
  | .reference name :: ts => if (referenceText? name).any (·.all isSpace) then root? ts else none
  | .declaration :: ts => root? ts
  | _ => none

end Worksheet.Markup
