import Worksheet.Decimal.Spelling
import Worksheet.Expr.Evaluation
import Worksheet.Expr.Parser

/-! # The calculator

A calculator holds one compiled expression and the values of its variables. Compiling another
expression replaces both, and every variable starts at 0 again. -/

namespace Worksheet

/-- A compiled expression with the values of its variables. A blank source has no root. -/
structure Calculator where
  source : String
  root : Option (Expr Float)
  values : Table Float

namespace Calculator

/-- The calculator with the blank expression. -/
def empty : Calculator := ⟨"", none, .empty⟩

/-- The calculator for an expression, with all its variables at 0. -/
def compile (source : String) : Except Expr.Error Calculator :=
  let reading := Expr.read source
  reading.result.map fun root =>
    ⟨source, root.map (·.map fun digits => Decimal.ofDigits digits.toList),
      .constant reading.vars 0⟩

/-- The value of the expression, none for the blank one. -/
def evaluate (c : Calculator) : Except Expr.Error (Option Float) :=
  match c.root with
  | none => .ok none
  | some root => (root.evaluate Operator.onFloats c.values).map some

/-- The value of a variable of the expression. -/
def value? (c : Calculator) (name : String) : Option Float := c.values.find? name

/-- The calculator with a value for a variable of its expression. -/
def assign (c : Calculator) (name : String) (value : Float) : Except Expr.Error Calculator :=
  match c.values.find? name with
  | some _ => .ok { c with values := c.values.insert name value }
  | none => .error (.unknownVariable name)

end Calculator

end Worksheet
