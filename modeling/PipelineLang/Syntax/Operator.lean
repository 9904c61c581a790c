/-!
# Operators

## Main definitions

- `BinaryOp`, `UnaryOp` — the operators of expressions
- `BinaryOp.precedence`, `UnaryOp.precedence` — how tightly an operator binds
- `BinaryOp.text`, `UnaryOp.text` — how an operator is written
- `lambdaPrecedence` — how tightly the arrow of a lambda binds its body

## Design notes

A higher precedence binds more tightly. All binary operators associate to the
left. The prefix operators `not` and `move` bind looser than comparisons, the
signs tighter than any binary operator.
-/

namespace PipelineLang

/-- An operator between two expressions. -/
inductive BinaryOp where
  | orElse | onlyIf | or | and
  | eq | notEq | gt | gtEq | lt | ltEq | isIn | isNotIn
  | add | sub | mul | div
deriving Repr, BEq, DecidableEq, Inhabited

namespace BinaryOp

/-- All binary operators, loosest first. -/
def all : List BinaryOp :=
  [.orElse, .onlyIf, .or, .and, .eq, .notEq, .gt, .gtEq, .lt, .ltEq, .isIn, .isNotIn,
   .add, .sub, .mul, .div]

/-- How tightly the operator binds. -/
def precedence : BinaryOp → Nat
  | .orElse => 1
  | .onlyIf => 2
  | .or => 3
  | .and => 4
  | .eq | .notEq | .gt | .gtEq | .lt | .ltEq | .isIn | .isNotIn => 6
  | .add | .sub => 7
  | .mul | .div => 8

/-- The operator as it is written. -/
def text : BinaryOp → String
  | .orElse => "else" | .onlyIf => "if" | .or => "or" | .and => "and"
  | .eq => "==" | .notEq => "!=" | .gt => ">" | .gtEq => ">=" | .lt => "<" | .ltEq => "<="
  | .isIn => "in" | .isNotIn => "not in"
  | .add => "+" | .sub => "-" | .mul => "*" | .div => "/"

/-- The name of the operator in listings of the tree. -/
def name : BinaryOp → String
  | .orElse => "Else" | .onlyIf => "If" | .or => "Or" | .and => "And"
  | .eq => "Eq" | .notEq => "NotEq" | .gt => "Gt" | .gtEq => "GtEq" | .lt => "Lt" | .ltEq => "LtEq"
  | .isIn => "In" | .isNotIn => "NotIn"
  | .add => "Add" | .sub => "Sub" | .mul => "Mul" | .div => "Div"

end BinaryOp

/-- An operator in front of an expression. -/
inductive UnaryOp where
  | not | move | plus | neg
deriving Repr, BEq, DecidableEq, Inhabited

namespace UnaryOp

/-- All prefix operators. -/
def all : List UnaryOp := [.not, .move, .plus, .neg]

/-- How tightly the operator binds. -/
def precedence : UnaryOp → Nat
  | .not | .move => 5
  | .plus | .neg => 9

/-- The operator as it is written in front of its operand, with the space that a
word needs. -/
def text : UnaryOp → String
  | .not => "not " | .move => "move " | .plus => "+" | .neg => "-"

/-- The name of the operator in listings of the tree. -/
def name : UnaryOp → String
  | .not => "Not" | .move => "Move" | .plus => "Plus" | .neg => "Neg"

end UnaryOp

/-- The least precedence of an operator in the body of a lambda. -/
def lambdaPrecedence : Nat := 2

end PipelineLang
