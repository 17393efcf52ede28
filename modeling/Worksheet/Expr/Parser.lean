import Worksheet.Expr.Basic
import Worksheet.Expr.Parentheses
import Worksheet.Text.Blank
import Worksheet.Text.Digits

/-! # Reading expressions

A text is read without tokens. White space and a pair of parentheses around it are taken away; a
text with an operator outside all parentheses is split at the last such place of the first operator
of `Operator.splitOrder` that has one, and both sides are read; any other text is a leaf, a run of
digits or an identifier. There is no unary operator.

Each pair of parentheses taken away and each split is a level, and there are at most `maxLevels`. -/

namespace Worksheet.Expr

open Worksheet.Text

/-- The greatest number of parentheses and splits on the way to a leaf. -/
def maxLevels : Nat := 256

/-- The outcome of reading a text: its expression or an error, and the variables met on the way, in
order. -/
structure Reading (α : Type) where
  result : Except Error α
  vars : List String

namespace Reading

/-- A reading without variables. -/
def fail {α : Type} (e : Error) : Reading α := ⟨.error e, []⟩

/-- A reading with another result. -/
def map {α β : Type} (f : α → β) (r : Reading α) : Reading β := ⟨r.result.map f, r.vars⟩

/-- The reading of an operation from the readings of its sides. Nothing is met on the right after an
error on the left. -/
def operation (op : Operator) (left right : Reading (Expr String)) : Reading (Expr String) :=
  match left.result with
  | .error e => ⟨.error e, left.vars⟩
  | .ok l => ⟨right.result.map (.operation op l), left.vars ++ right.vars⟩

end Reading

/-- An identifier: a letter or `_`, then letters, digits and `_`. -/
def isIdentifier : List Char → Bool
  | [] => false
  | c :: s => (c.isAlpha || c == '_') && s.all fun d => d.isAlphanum || d == '_'

/-- The operator that a text is split at, and the texts at its sides. -/
def split? (s : List Char) : Option (Operator × List Char × List Char) :=
  Operator.splitOrder.findSome? fun op => (cutAtLast? op.symbol s).map (op, ·)

/-- The reading of a text without operators. -/
def readLeaf (leaf : List Char) : Reading (Expr String) :=
  if isDigits leaf then ⟨.ok (.const (String.ofList leaf)), []⟩
  else if isIdentifier leaf then ⟨.ok (.var (String.ofList leaf)), [String.ofList leaf]⟩
  else .fail (.invalidOperand (String.ofList leaf))

/-- The reading of a part of the source for which `levels` levels are left. -/
def readPart (source : String) : (levels : Nat) → List Char → Reading (Expr String)
  | 0, _ => .fail (.tooDeep maxLevels)
  | levels + 1, part =>
    let text := trim part
    if text.isEmpty then .fail (.missingOperand source)
    else match inside? text with
      | some inner => readPart source levels inner
      | none => match split? text with
        | some (op, left, right) =>
          .operation op (readPart source levels left) (readPart source levels right)
        | none => readLeaf text

/-- The reading of a source. A blank one has no expression, which is no error. Constants are kept as
they are written. -/
def read (source : String) : Reading (Option (Expr String)) :=
  let text := trim source.toList
  if text.isEmpty then ⟨.ok none, []⟩
  else if isBalanced text then (readPart source (maxLevels + 1) text).map some
  else .fail (.unbalanced (String.ofList text))

end Worksheet.Expr
