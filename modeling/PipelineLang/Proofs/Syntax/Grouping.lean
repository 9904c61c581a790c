import PipelineLang.Proofs.Syntax.Subtree

/-!
# Grouping

An expression is written without parentheses of its own, so an operator can only have
operands that do not fall apart next to it.

## Main definitions

- `Expr.AtLeast` — an operand whose operator binds tightly enough
- `Expr.LeftOf` — an expression that an operator may stand behind
- `Expr.IsReceiver`, `Expr.IsPrimary` — an expression that a suffix may stand behind, and one that
  has none
- `Expr.Grouped` — an expression whose operands are grouped without parentheses

## Design notes

An operator in front of its operand, or a lambda, goes on to the right as far as it
can. So it matters to a binary operator whether one of them is on the right edge of
its left operand, and not whether it is on the left edge of its right one.
-/

namespace PipelineLang.Expr

/-- The operator of a binary expression. -/
def operator? : Expr → Option BinaryOp
  | .binary op _ _ _ => some op
  | _ => none

/-- The precedences of the operators in front and of the lambdas on the right edge of an
expression. -/
def rightEdge : Expr → List Nat
  | .binary _ _ right _ => right.rightEdge
  | .unary op operand _ => op.precedence :: operand.rightEdge
  | .lambda _ body _ => lambdaPrecedence :: body.rightEdge
  | _ => []

/-- Whether the operator of an expression, if it is binary, has a precedence of at least
`least`. -/
def AtLeast (least : Nat) (value : Expr) : Prop :=
  ∀ op, value.operator? = some op → least ≤ op.precedence

/-- Whether `op` behind an expression takes all of it as its left operand. -/
def LeftOf (op : BinaryOp) (value : Expr) : Prop :=
  value.AtLeast op.precedence ∧ ∀ precedence ∈ value.rightEdge, op.precedence < precedence

/-- Whether a suffix behind an expression is a suffix of all of it. -/
def IsReceiver : Expr → Prop
  | .binary _ _ _ _ | .unary _ _ _ | .lambda _ _ _ => False
  | _ => True

/-- Whether an expression is a receiver with no suffix behind it. -/
def IsPrimary : Expr → Prop
  | .binary _ _ _ _ | .unary _ _ _ | .lambda _ _ _ => False
  | .member _ _ _ _ | .index _ _ _ _ | .methodCall _ _ _ _ => False
  | _ => True

/-- Whether the parts of an expression are grouped as they are written: both operands of
an operator, the operand of an operator in front of it, the body of a lambda, and what
a suffix belongs to. -/
def Grouped : Expr → Prop
  | .binary op left right _ => left.LeftOf op ∧ right.AtLeast (op.precedence + 1)
  | .unary op operand _ => operand.AtLeast op.precedence
  | .lambda _ body _ => body.AtLeast lambdaPrecedence
  | .member receiver _ _ _ => receiver.IsReceiver
  | .index receiver _ _ _ => receiver.IsReceiver
  | .methodCall receiver _ _ _ => receiver.IsReceiver
  | _ => True

theorem operator?_eq_none {value : Expr} (h : value.IsReceiver) : value.operator? = none := by
  cases value <;> simp_all [IsReceiver, operator?]

theorem rightEdge_eq_nil {value : Expr} (h : value.IsReceiver) : value.rightEdge = [] := by
  cases value <;> simp_all [IsReceiver, rightEdge]

theorem atLeast_of_operator?_eq_none {least : Nat} {value : Expr} (h : value.operator? = none) :
    value.AtLeast least := by
  intro op hop
  simp [h] at hop

theorem AtLeast.mono {least most : Nat} {value : Expr} (h : value.AtLeast most)
    (hle : least ≤ most) : value.AtLeast least :=
  fun op hop => Nat.le_trans hle (h op hop)

theorem IsReceiver.leftOf {value : Expr} (h : value.IsReceiver) (op : BinaryOp) :
    value.LeftOf op :=
  ⟨atLeast_of_operator?_eq_none (operator?_eq_none h), by simp [rightEdge_eq_nil h]⟩

end PipelineLang.Expr
