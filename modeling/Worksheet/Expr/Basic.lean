/-! # Arithmetic expressions

An expression is a tree of the four operators over constants and variables. The constants may be of
any type: digit runs as they are written, floating point numbers, or the numbers of another
arithmetic. -/

namespace Worksheet

/-- The four arithmetic operators. -/
inductive Operator where
  | add
  | subtract
  | multiply
  | divide
deriving DecidableEq, Repr

namespace Operator

/-- The operators in the order in which a text is split at them: the first one present is applied
last. -/
def splitOrder : List Operator := [add, subtract, multiply, divide]

/-- The symbol of an operator. -/
def symbol : Operator → Char
  | add => '+'
  | subtract => '-'
  | multiply => '*'
  | divide => '/'

/-- The operator with a given symbol. -/
def ofSymbol? (c : Char) : Option Operator := splitOrder.find? (·.symbol = c)

/-- The operators on floating point numbers. Division by zero gives an infinity or no number. -/
def onFloats : Operator → Float → Float → Float
  | add, x, y => x + y
  | subtract, x, y => x - y
  | multiply, x, y => x * y
  | divide, x, y => x / y

end Operator

/-- An arithmetic expression with constants of type `α`. -/
inductive Expr (α : Type) where
  | const (value : α)
  | var (name : String)
  | operation (op : Operator) (left right : Expr α)
deriving DecidableEq, Repr

namespace Expr

variable {α β : Type}

/-- The number of levels down to the deepest leaf, a leaf counted as one. -/
def depth : Expr α → Nat
  | const _ | var _ => 1
  | operation _ left right => 1 + max left.depth right.depth

/-- The variables of the leaves from left to right, repetitions included. -/
def vars : Expr α → List String
  | const _ => []
  | var name => [name]
  | operation _ left right => left.vars ++ right.vars

/-- The same tree with other constants. -/
def map (f : α → β) : Expr α → Expr β
  | const value => const (f value)
  | var name => var name
  | operation op left right => operation op (left.map f) (right.map f)

/-- The tree in Polish notation, each operation in parentheses: `(+ 2 (* 3 x))`. -/
def polish (text : α → String) : Expr α → String
  | const value => text value
  | var name => name
  | operation op left right =>
    "(" ++ op.symbol.toString ++ " " ++ left.polish text ++ " " ++ right.polish text ++ ")"

@[simp] theorem depth_map (f : α → β) (e : Expr α) : (e.map f).depth = e.depth := by
  induction e with
  | const | var => rfl
  | operation op left right hl hr => simp [map, depth, hl, hr]

@[simp] theorem vars_map (f : α → β) (e : Expr α) : (e.map f).vars = e.vars := by
  induction e with
  | const | var => rfl
  | operation op left right hl hr => simp [map, vars, hl, hr]

/-! ### Errors -/

/-- The reasons for which an expression is not read or has no value. -/
inductive Error where
  | unbalanced (text : String)
  | missingOperand (source : String)
  | invalidOperand (leaf : String)
  | tooDeep (levels : Nat)
  | unknownVariable (name : String)
  | unboundVariable (name : String)
deriving DecidableEq, Repr

/-- The wording of an error. -/
def Error.message : Error → String
  | unbalanced text => "unbalanced parentheses in: " ++ text
  | missingOperand source => "missing operand in: " ++ source
  | invalidOperand leaf => "not a number or variable name: " ++ leaf
  | tooDeep levels => "expression nests deeper than " ++ toString levels ++ " levels"
  | unknownVariable name => "variable was not registered by the current expression: " ++ name
  | unboundVariable name => "no value bound for variable: " ++ name

end Expr

end Worksheet
