import PipelineLang.Grammar.Expression

/-!
# The grammar of statements

## Main definitions

- `Grammar.statement` — a statement
- `Grammar.conditional`, `Grammar.selection`, `Grammar.invocation` — kinds of it
- `Grammar.anotherStatement` — what stands between statements
- `Grammar.pipelineBehind` — the statements behind an opening brace
- `Grammar.block`, `Grammar.arm` — what statements consist of

## Design notes

A brace behind the name of an operator starts a record if one can be read there, and
a block if not. Parentheses behind the name hold all arguments if the invocation
ends behind them, and are part of the first argument if not.
-/

namespace PipelineLang.Grammar

open Parse

variable (enter : Enter)

/-- A binding of a variable; the next token is its first one. -/
def letBinding : Parse Statement := do
  let keyword ← take
  let name ← expect .dollarVar
  let _ ← expect .assign
  let value ← expression enter
  return .letBinding ⟨variableName name, name.span⟩ value (keyword.span.through value.span)

/-- A conditional; the next token is its first one. -/
def conditional : Parse Conditional := do
  let keyword ← take
  let condition ← expression enter
  let consequence ← enter _ .block
  if ← eats .kwElse then
    if ← isAt .kwIf then
      let inner ← enter _ .conditional
      return ⟨condition, consequence, .conditional inner, keyword.span.through inner.span⟩
    else
      let inner ← enter _ .block
      return ⟨condition, consequence, .block inner, keyword.span.through inner.span⟩
  else return ⟨condition, consequence, .absent, keyword.span.through consequence.span⟩

/-- A selection; the next token is its first one. -/
def selection : Parse Statement := do
  let keyword ← take
  let subject ← expression enter
  let opener ← expect .lBrace
  skipNewlines
  let arms ← enter _ (.arms opener)
  let closer ← expectClosing .rBrace opener
  return .selection subject arms (keyword.span.through closer.span)

/-- An assignment; none, with nothing taken, if there is none. -/
def assignmentStatement? : Parse (Option Statement) := do
  match ← assignment? enter with
  | some (target, value) => return some (.assignment target value (target.span.through value.span))
  | none => return none

/-- The tokens behind which an invocation with parentheses may end. -/
def invocationClosers : List TokenKind := [.newline, .pipe, .rBrace, .lBrace, .eof]

/-- Arguments in parentheses; none, with nothing taken, if there are none or the
invocation does not end behind them. -/
def parenthesized? : Parse (Option (List Argument)) := do
  if ← isAt .lParen then
    attempt do
      let arguments ← callArguments enter
      return if invocationClosers.contains (← peekKind) then some arguments else none
  else return none

/-- Take a comma and the line ends behind it, and say whether there was one. -/
def commaBehind : Parse Bool := do
  if ← eats .comma then
    skipNewlines
    return true
  else return false

/-- One or more arguments without parentheses around them. -/
def bareArguments : Parse (List Argument) := series (argument enter) commaBehind

/-- Whether an argument may start with a token of some kind. -/
def startsArgument (kind : TokenKind) : Bool :=
  kind.isLiteral ||
    [TokenKind.identifier, .dollarVar, .atSign, .kwThis, .lBracket, .lBrace, .lParen, .plus,
      .minus, .kwNot, .kwMove].contains kind

/-- The arguments behind the name of an operator, and whether they stand in
parentheses. -/
def operatorArguments : Parse (List Argument × Bool) := do
  match ← parenthesized? enter with
  | some arguments => return (arguments, true)
  | none =>
    let first ← peekKind
    if !startsArgument first then return ([], false)
    else if first == .lBrace then
      return ((← attempt (some <$> bareArguments enter)).getD [], false)
    else return (← bareArguments enter, false)

/-- The block of an operator, if there is one, and the arguments behind it. -/
def operatorBlock : Parse (Option Pipeline × List Argument) := do
  if ← isAt .lBrace then
    let opener ← take
    skipNewlines
    let body ← enter _ (.pipeline opener)
    let _ ← expectClosing .rBrace opener
    if ← commaBehind then
      match ← parenthesized? enter with
      | some arguments => return (some body, arguments)
      | none => return (some body, ← bareArguments enter)
    else return (some body, [])
  else return (none, [])

/-- An invocation of an operator. -/
def invocation : Parse Statement := do
  let operator ← entity
  let (arguments, parenthesized) ← operatorArguments enter
  let (block, trailing) ← operatorBlock enter
  return .invocation operator arguments parenthesized block trailing
    (operator.span.through (← lastSpan))

/-- A statement that starts with a selector: an assignment, or an invocation if the
selector is a name. -/
def assignmentOrInvocation : Parse Statement := do
  match ← assignmentStatement? enter with
  | some statement => return statement
  | none =>
    if ← isAt .identifier then invocation enter
    else match ← selector? with
      | some _ => unexpected [.token .assign]
      | none => unexpected [.selector]

/-- A statement. -/
def statement : Parse Statement := do
  match ← peekKind with
  | .kwLet => letBinding enter
  | .kwIf => return .conditional (← conditional enter)
  | .kwMatch => selection enter
  | .identifier => assignmentOrInvocation enter
  | .kwThis => assignmentOrInvocation enter
  | .atSign => assignmentOrInvocation enter
  | _ => unexpected [.statement]

/-- Take what separates statements, and say whether another one comes behind it.
There is none before `closer`, and before anything else something must separate. -/
def anotherStatement (closer : TokenKind) : Parse Bool := do
  let separated ← skip [.newline, .pipe]
  if ← isAt closer then return false
  else if separated then return true
  else unexpected [.token .newline, .token .pipe, .token closer]

/-- Statements up to a closing brace. -/
def pipeline : Parse Pipeline := do
  let statements ← series (statement enter) (anotherStatement .rBrace)
  match Pipeline.ofStatements? statements with
  | some pipeline => return pipeline
  | none => unexpected [.statement]

/-- Whether an error is about the end of the tokens. -/
def foundEnd (error : SyntaxError) : Bool :=
  match error.cause with
  | .unexpected _ .eof => true
  | _ => false

/-- Apply `rule`; where it comes to the end of the tokens, `opener` is not closed. -/
def closing {α : Type} (opener : Token) (rule : Parse α) : Parse α := fun stream =>
  match rule stream with
  | .ok a behind => .ok a behind
  | .error error behind => if foundEnd error then unclosed opener behind else .error error behind

/-- The statements behind an opening brace, up to its closing brace. -/
def pipelineBehind (opener : Token) : Parse Pipeline := do
  if ← isAt .eof then unclosed opener else closing opener (pipeline enter)

/-- A block. -/
def block : Parse Block := do
  let opener ← expect .lBrace
  skipNewlines
  let body ← if ← isAt .rBrace then pure none else some <$> pipelineBehind enter opener
  let closer ← expectClosing .rBrace opener
  return ⟨body, opener.span.through closer.span⟩

/-- An arm of a selection. -/
def arm : Parse Arm := do
  let patterns ← series (pattern enter) commaBehind
  let _ ← expect .fatArrow
  let opener ← expect .lBrace
  skipNewlines
  let body ← enter _ (.pipeline opener)
  let closer ← expectClosing .rBrace opener
  let start := (patterns.head?.map (·.span)).getD opener.span
  return ⟨patterns, body, start.through closer.span⟩

/-- Whether an arm is next. -/
def atArm (opener : Token) : Parse Bool := do
  match ← peekKind with
  | .rBrace => return false
  | .eof => unclosed opener
  | _ => return true

/-- Take what separates arms, and say whether another one comes behind it. -/
def anotherArm (opener : Token) : Parse Bool := do
  let _ ← skip [.newline, .comma]
  atArm opener

/-- The arms behind the opening brace of a selection, up to its closing brace. -/
def armsBehind (opener : Token) : Parse (List Arm) := do
  if ← atArm opener then series (arm enter) (anotherArm opener) else return []

end PipelineLang.Grammar
