import PipelineLang.Syntax.Expr

/-!
# Statements

## Main definitions

- `Statement`, `Pipeline` — statements and sequences of them
- `Conditional`, `Alternative`, `Block`, `Arm` — the parts of statements
- `Statement.span` — the place of a statement
- `Pipeline.ofStatements?` — the pipeline of some statements

## Design notes

A pipeline has at least one statement; a block may have no pipeline. Only
`Pipeline.ofStatements?` makes pipelines, so that the place of a pipeline is that of
its statements.
-/

namespace PipelineLang

mutual

/-- A statement. -/
inductive Statement where
  /-- A variable is bound; the dollar sign is no part of `name`, but of its place. -/
  | letBinding (name : Identifier) (value : Expr) (span : Span)
  | conditional (inner : Conditional)
  /-- A value is compared with the patterns of arms. -/
  | selection (subject : Expr) (arms : List Arm) (span : Span)
  | assignment (target : Selector) (value : Expr) (span : Span)
  /-- An operator is invoked. `parenthesized` says whether its arguments stand in
  parentheses; `trailing` are the arguments behind its block. -/
  | invocation (operator : Entity) (arguments : List Argument) (parenthesized : Bool)
    (block : Option Pipeline) (trailing : List Argument) (span : Span)

/-- A condition, a block, and what holds otherwise. -/
structure Conditional where
  condition : Expr
  consequence : Block
  alternative : Alternative
  span : Span

/-- What is done if a condition does not hold. -/
inductive Alternative where
  | absent
  | conditional (inner : Conditional)
  | block (inner : Block)

/-- A pipeline between braces, or braces alone. -/
structure Block where
  body : Option Pipeline
  span : Span

/-- Patterns and what is done if one of them fits. -/
structure Arm where
  patterns : List Expr
  body : Pipeline
  span : Span

/-- A sequence of statements. -/
structure Pipeline where
  statements : List Statement
  span : Span

end

/-- The place of a statement. -/
def Statement.span : Statement → Span
  | .letBinding _ _ span | .selection _ _ span | .assignment _ _ span
  | .invocation _ _ _ _ _ span => span
  | .conditional inner => inner.span

/-- The pipeline of some statements; none if there are none. -/
def Pipeline.ofStatements? (statements : List Statement) : Option Pipeline :=
  match statements.head?, statements.getLast? with
  | some first, some last => some ⟨statements, first.span.through last.span⟩
  | _, _ => none

end PipelineLang
