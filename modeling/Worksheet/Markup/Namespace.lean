import Worksheet.Markup.Attribute

/-! # Namespaces

A name may be qualified: what stands in front of its first colon is the qualifier, the rest is its
local part. An attribute `xmlns:q` binds the qualifier `q` to a namespace within its element. The
bindings in force are kept element by element, the innermost first. -/

namespace Worksheet.Markup

open Text

/-- The qualifier of a name that has one. -/
def qualifier? (name : List Symbol) : Option (List Symbol) := (cut? (symbolsOf ":") name).map (·.1)

/-- The local part of a name. -/
def localPart (name : List Symbol) : List Symbol := (after? (symbolsOf ":") name).getD name

/-- A qualifier and the namespace it is bound to, as it is written. -/
structure Binding where
  qualifier : List Symbol
  namespaceName : List Symbol
deriving DecidableEq, Repr

/-- The name of a namespace that every document knows, given its path. It has the form of an
address; only its spelling matters. -/
def knownNamespace (path : List String) : List Symbol :=
  symbolsOf ("/".intercalate ("http:" :: "" :: "www.w3.org" :: path))

/-- The namespace of the qualifier `xml`. -/
def xmlNamespace : List Symbol := knownNamespace ["XML", "1998", "namespace"]

/-- The namespace of the qualifier `xmlns`. -/
def bindingNamespace : List Symbol := knownNamespace ["2000", "xmlns", ""]

/-- The namespace of the attribute that says that an element has no content. -/
def instanceNamespace : List Symbol := knownNamespace ["2001", "XMLSchema-instance"]

namespace Binding

/-- The binding that an attribute makes. -/
def ofAttribute? (a : Attribute) : Option Binding :=
  (strip? (symbolsOf "xmlns:") a.name).map fun qualifier => ⟨qualifier, a.value⟩

/-- Whether a binding may be made: of the qualifier `xml` to its own namespace only, and of any
other but `xmlns` to a namespace that belongs to neither of these two. -/
def isAllowed (b : Binding) : Bool :=
  if b.qualifier = symbolsOf "xml" then b.namespaceName = xmlNamespace
  else
    b.qualifier ≠ symbolsOf "xmlns" && b.namespaceName ≠ xmlNamespace &&
      b.namespaceName ≠ bindingNamespace

end Binding

/-- The bindings in force, element by element. -/
abbrev Scopes := List (List Binding)

namespace Scopes

/-- The bindings in force within an element with the given attributes, if all that it makes are
allowed. Of two for one qualifier the last one counts, and a qualifier must not be empty to stand
for anything. -/
def enter? (s : Scopes) (attributes : List Symbol) : Option Scopes :=
  let bindings := (leading (parts attributes)).filterMap Binding.ofAttribute?
  if bindings.all Binding.isAllowed then
    some ((bindings.filter (!·.qualifier.isEmpty)).reverse :: s)
  else none

/-- The namespace that a qualifier stands for. -/
def namespace? (s : Scopes) (qualifier : List Symbol) : Option (List Symbol) :=
  (s.flatten.find? (·.qualifier = qualifier)).map (·.namespaceName)

/-- Whether an attribute says that its element has no content. -/
def saysNil (s : Scopes) (a : Attribute) : Bool :=
  (qualifier? a.name).bind s.namespace? = some instanceNamespace &&
    localPart a.name = symbolsOf "nil" &&
    (a.value = symbolsOf "true" || a.value = symbolsOf "1")

/-- Whether one of the attributes of an element says that it has no content. -/
def isNil (s : Scopes) (attributes : List Symbol) : Bool :=
  (unrepeated [] (parts attributes)).any s.saysNil

end Scopes

/-! ### Attributes by name -/

/-- The name by which an attribute is looked up: its local part, unless it makes a binding or is one
of those that every document has. -/
def Attribute.key (a : Attribute) : List Symbol :=
  if (Binding.ofAttribute? a).isSome ∨ qualifier? a.name = some (symbolsOf "xml") then a.name
  else localPart a.name

/-- The attributes by the names by which they are looked up, if all of these are text. -/
def keyed? (attributes : List Attribute) : Option (List (List Char × List Symbol)) :=
  attributes.mapM fun a => (characters? a.key).map (·, a.value)

/-- The value of the attribute with a given name, its references replaced, or none if there is no
such attribute. There must not be two of them. -/
def attributeValue? (attributes : List Attribute) (name : String) :
    Option (Option (List Char)) := do
  match (← keyed? attributes).filter (·.1 = name.toList) with
  | [] => some none
  | [(_, value)] => (expand? (← characters? value)).map some
  | _ => none

end Worksheet.Markup
