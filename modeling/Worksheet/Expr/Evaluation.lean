import Worksheet.Expr.Basic
import Worksheet.Table

/-! # The value of an expression -/

namespace Worksheet.Expr

variable {α : Type}

/-- The value of an expression for a meaning of the operators and values of the variables, computed
from left to right. The first variable without a value is an error. -/
def evaluate (apply : Operator → α → α → α) (values : Table α) : Expr α → Except Error α
  | const value => .ok value
  | var name =>
    match values.find? name with
    | some value => .ok value
    | none => .error (.unboundVariable name)
  | operation op left right => do
    let l ← left.evaluate apply values
    let r ← right.evaluate apply values
    return apply op l r

end Worksheet.Expr
