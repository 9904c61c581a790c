import PipelineLang.Token.Fault

/-!
# Faults of programs

## Main definitions

- `Expectation` — what could stand at a place
- `SyntaxCause` — why tokens are no program
- `SyntaxError` — a cause and where it is
- `SyntaxError.message` — the wording
-/

namespace PipelineLang

/-- What could stand at a place. -/
inductive Expectation where
  | token (kind : TokenKind)
  | expression
  | statement
  | selector
deriving Repr, BEq, DecidableEq

/-- The wording of an expectation. -/
def Expectation.text : Expectation → String
  | .token kind => kind.describe
  | .expression => "expression"
  | .statement => "statement"
  | .selector => "selector"

/-- Why tokens are no program. -/
inductive SyntaxCause where
  /-- A token of the kind `found` stands where only something else may. -/
  | unexpected (expected : List Expectation) (found : TokenKind)
  /-- The tokens end before a bracket is closed. -/
  | unclosed (opener : TokenKind) (openedAt : Span)
  /-- Blocks, brackets and expressions lie within each other more than `limit` deep. -/
  | nestingTooDeep (limit : Nat)
  /-- The text of a literal has no value. -/
  | invalidLiteral (text : String)
  /-- The pieces of a format string cannot be told apart. -/
  | malformedFormat
deriving Repr, BEq, DecidableEq

namespace SyntaxCause

/-- What could have stood where something else was found. -/
def expected : SyntaxCause → List Expectation
  | .unexpected expected _ => expected
  | _ => []

/-- The wording of what was found in place of what was expected. -/
def unexpectedMessage (found : TokenKind) : List Expectation → String
  | [] => "unexpected " ++ found.describe
  | [one] => "expected " ++ one.text ++ ", found " ++ found.describe
  | several =>
    "expected one of " ++ String.intercalate ", " (several.map (·.text)) ++ ", found "
      ++ found.describe

/-- The wording of a cause. -/
def message : SyntaxCause → String
  | .unexpected expected found => unexpectedMessage found expected
  | .unclosed opener openedAt =>
    s!"unclosed {opener.describe} opened at line {openedAt.line}, column {openedAt.column}"
  | .nestingTooDeep limit => s!"nesting too deep, limit is {limit}"
  | .invalidLiteral text => "invalid literal: " ++ text
  | .malformedFormat => "malformed format string"

end SyntaxCause

/-- A cause and the place of the token where it arose. -/
structure SyntaxError where
  cause : SyntaxCause
  span : Span
deriving Repr, BEq, DecidableEq

/-- The wording of an error, with its place. -/
def SyntaxError.message (error : SyntaxError) : String :=
  s!"{error.cause.message} at line {error.span.line}, column {error.span.column}"

end PipelineLang
