import Worksheet.Markup.Namespace
import Worksheet.Markup.Node

/-! # Ignored elements

An element of no interest is looked at up to the first thing in it and the one after that; the rest
of its content need only be well-formed. Text that comes first must be text, and the bindings of an
element that comes into view must be allowed. One level of bindings is dropped at the end, which is
that of the element itself unless an element of another name is the last one in view. -/

namespace Worksheet.Markup

open Text

namespace Scopes

/-- The bindings in force behind an element with a given name, given those within it and the part of
its content of which only the beginning is in view. -/
def leave? (s : Scopes) (name : List Symbol) : List Node → Option Scopes
  | .element child attributes _ :: _ =>
    (s.enter? attributes).map fun _ => if child = name then s.tail else s
  | _ => some s.tail

/-- The bindings in force behind an ignored element with a given name, given those within it,
whether there has been text in it, and the rest of its content. -/
def ignore? (s : Scopes) (name : List Symbol) : (begun : Bool) → List Node → Option Scopes
  | _, [] => some s.tail
  | begun, .text symbols :: ns => do
    let chars ← textOf? symbols
    s.ignore? name (begun || !chars.isEmpty) ns
  | _, .reference entity :: ns => do
    let _ ← referenceText? entity
    s.ignore? name true ns
  | begun, .declaration :: ns =>
    if begun then s.leave? name (.declaration :: ns) else s.ignore? name false ns
  | begun, .element child attributes children :: ns =>
    if begun then s.leave? name (.element child attributes children :: ns)
    else do
      let within ← s.enter? attributes
      let behind ← within.leave? child children
      behind.leave? name ns

end Scopes

end Worksheet.Markup
