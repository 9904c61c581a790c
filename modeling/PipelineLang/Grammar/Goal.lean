import PipelineLang.Grammar.Parse
import PipelineLang.Syntax.Statement

/-!
# Nested parts

## Main definitions

- `Goal` — the parts of a program that count as nested in what is around them
- `Enter` — how a rule reads such a part

## Design notes

The rules of the grammar do not call each other in circles. A rule that needs a
nested part asks for it through an `Enter`, so the depth of nesting is counted in one
place.
-/

namespace PipelineLang

/-- A nested part of a program, by the type of its tree. -/
inductive Goal : Type → Type where
  /-- An expression whose operators have a precedence of at least `least`. -/
  | expression (least : Nat) : Goal Expr
  /-- The items of a list, up to its closing bracket. -/
  | listItems : Goal (List ListItem)
  /-- The items of a record, up to its closing brace. -/
  | recordItems : Goal (List RecordItem)
  /-- Arguments behind their opening parenthesis, with the closing one. -/
  | arguments (opener : Token) : Goal (List Argument)
  /-- A conditional, as the alternative of another one. -/
  | conditional : Goal Conditional
  /-- A block, with its braces. -/
  | block : Goal Block
  /-- The arms behind the opening brace of a selection, up to its closing brace. -/
  | arms (opener : Token) : Goal (List Arm)
  /-- The statements behind an opening brace, up to the closing brace. -/
  | pipeline (opener : Token) : Goal Pipeline

/-- A way to read nested parts. -/
abbrev Enter := (α : Type) → Goal α → Parse α

end PipelineLang
