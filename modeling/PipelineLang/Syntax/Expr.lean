import PipelineLang.Literal.Basic
import PipelineLang.Syntax.Name
import PipelineLang.Syntax.Operator

/-!
# Expressions

## Main definitions

- `Expr` — expressions, with the pieces of format strings (`Segment`), the items of
  lists and records (`ListItem`, `RecordItem`) and arguments (`Argument`)
- `Expr.span`, `Segment.span`, `Argument.span` — their places

## Design notes

An expression is kept as it was written: parentheses are nodes, literals and the text
of format strings have their source text, and every node has its place.
-/

namespace PipelineLang

/-- The key of a field of a record. -/
inductive RecordKey where
  | identifier (name : Identifier)
  | string (value : StringLiteral)
deriving Repr, BEq, DecidableEq

namespace RecordKey

/-- The key as it is written. -/
def text : RecordKey → String
  | .identifier name => name.name
  | .string value => value.text

end RecordKey

mutual

/-- An expression and its place. -/
inductive Expr where
  | literal (value : Literal) (span : Span)
  /-- A format string. -/
  | format (segments : List Segment) (span : Span)
  | identifier (name : String) (span : Span)
  /-- A variable; `name` is without its dollar sign. -/
  | variable (name : String) (span : Span)
  | metadata (selector : MetaSelector) (span : Span)
  | this (span : Span)
  /-- The word `_`. -/
  | placeholder (span : Span)
  | list (items : List ListItem) (span : Span)
  | record (items : List RecordItem) (span : Span)
  /-- An expression between parentheses. -/
  | paren (inner : Expr) (span : Span)
  | binary (op : BinaryOp) (left right : Expr) (span : Span)
  | unary (op : UnaryOp) (operand : Expr) (span : Span)
  | member (receiver : Expr) (name : Identifier) (mark : Option OptionalMark) (span : Span)
  /-- An index; `optional` says that a question mark follows it. -/
  | index (receiver index : Expr) (optional : Bool) (span : Span)
  | call (function : Entity) (arguments : List Argument) (span : Span)
  | methodCall (receiver : Expr) (function : Entity) (arguments : List Argument) (span : Span)
  | lambda (parameter : Identifier) (body : Expr) (span : Span)

/-- A piece of a format string. -/
inductive Segment where
  /-- Text as it is written and what it stands for. -/
  | text (raw value : String) (span : Span)
  /-- An expression between braces, which belong to the place. -/
  | replacement (value : Expr) (span : Span)

/-- An item of a list. -/
inductive ListItem where
  | item (value : Expr)
  | spread (value : Expr) (span : Span)

/-- An item of a record. -/
inductive RecordItem where
  | field (key : RecordKey) (value : Expr) (span : Span)
  | spread (value : Expr) (span : Span)

/-- An argument of an operator or a function. -/
inductive Argument where
  | named (target : Selector) (value : Expr) (span : Span)
  | positional (value : Expr)

end

/-- The place of an expression. -/
def Expr.span : Expr → Span
  | .literal _ span | .format _ span | .identifier _ span | .variable _ span
  | .metadata _ span | .this span | .placeholder span | .list _ span | .record _ span
  | .paren _ span | .binary _ _ _ span | .unary _ _ span | .member _ _ _ span
  | .index _ _ _ span | .call _ _ span | .methodCall _ _ _ span | .lambda _ _ span => span

/-- The place of a piece of a format string. -/
def Segment.span : Segment → Span
  | .text _ _ span | .replacement _ span => span

/-- The place of an argument. -/
def Argument.span : Argument → Span
  | .named _ _ span => span
  | .positional value => value.span

end PipelineLang
