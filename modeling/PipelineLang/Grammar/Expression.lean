import PipelineLang.Grammar.Goal
import PipelineLang.Token.Format

/-!
# The grammar of expressions

## Main definitions

- `Grammar.selector?`, `Grammar.entity` — names
- `Grammar.argument` — arguments
- `Grammar.primary`, `Grammar.suffix` — operands and what is written behind them
- `Grammar.operand` — an operand, or an operator with its operand behind it
- `Grammar.chain` — operands with operators between them

## Design notes

An operator takes on its right only operators that bind more tightly, so a chain of
operators that may stand next to each other is read from left to right.
-/

namespace PipelineLang.Grammar

open Parse

/-- The identifier that a token is. -/
def identifierOf (token : Token) : Identifier := ⟨token.text, token.span⟩

/-- An identifier. -/
def identifier : Parse Identifier := do return identifierOf (← expect .identifier)

/-- The name of an operator or a function. -/
def entity : Parse Entity := do
  let segments ← series identifier (eats .moduleSep)
  let start := (segments.head?.map (·.span)).getD Span.zero
  return ⟨segments, start.through (← lastSpan)⟩

/-- Whether a dot and an identifier are next. -/
def atFieldStep : Parse Bool := do
  return (← peekKind) == .dot && (← peekSecond) == .identifier

/-- A step of a field path; the next token is its name. -/
def fieldSegment : Parse FieldSegment := do
  let name ← take
  return ⟨identifierOf name, ← eats .question⟩

/-- Take the dot before another step of a field path, if there is one. -/
def anotherFieldStep : Parse Bool := do
  if ← atFieldStep then
    let _ ← take
    return true
  else return false

/-- A field path whose first name is next; `start` is where the selector starts. -/
def fieldPath (start : Span) (rooted : Bool) : Parse Selector := do
  let segments ← series fieldSegment anotherFieldStep
  return .field ⟨rooted, segments, start.through (← lastSpan)⟩

/-- A selector; none, with nothing taken, if there is none. -/
def selector? : Parse (Option Selector) := commit do
  let first ← peek
  match first.kind with
  | .atSign =>
    let _ ← take
    match ← eat .identifier with
    | some name => return some (.metadata ⟨identifierOf name, first.span.through name.span⟩)
    | none => return none
  | .kwThis =>
    let _ ← take
    if ← anotherFieldStep then return some (← fieldPath first.span true)
    else return some (.field ⟨true, [], first.span⟩)
  | .identifier => return some (← fieldPath first.span false)
  | _ => return none

variable (enter : Enter)

/-- An expression. -/
def expression : Parse Expr := enter _ (.expression 0)

/-- A selector, an equals sign and an expression; none, with nothing taken, if the
sign does not come or no selector is before it. -/
def assignment? : Parse (Option (Selector × Expr)) := do
  let target ← commit do
    match ← selector? with
    | some target => if ← eats .assign then return some target else return none
    | none => return none
  match target with
  | some target => return some (target, ← expression enter)
  | none => return none

/-- An argument of an operator or a function. -/
def argument : Parse Argument := do
  match ← assignment? enter with
  | some (target, value) => return .named target value (target.span.through value.span)
  | none => return .positional (← expression enter)

/-- The arguments of a call, with their parentheses. -/
def callArguments : Parse (List Argument) := do
  let opener ← expect .lParen
  enter _ (.arguments opener)

/-- A literal. -/
def literal : Parse Expr := do
  let token ← peek
  match Literal.ofText? token.kind token.text with
  | some value =>
    let _ ← take
    return .literal value token.span
  | none => fail (.invalidLiteral token.text)

/-- The expression of a replacement, which takes all of its tokens. -/
def replacement : Parse Expr := do
  skipNewlines
  let value ← expression enter
  skipNewlines
  if ← isAt .eof then return value else unexpected [.token .rBrace]

/-- The tree of a piece of a format string. -/
def segment : FormatPiece → Parse Segment
  | .text raw span =>
    return .text (String.ofList raw) (String.ofList (Utf8.decode (Escape.decodeFormat raw))) span
  | .replacement inner innerSpan span => do
    match (Scanner.within inner innerSpan).tokens? with
    | .ok tokens =>
      let value ← Parse.within (.ofTokens tokens) (replacement enter)
      return .replacement value span
    | .error _ => fail .malformedFormat

/-- A format string. -/
def formatString : Parse Expr := do
  let token ← peek
  match token.formatPieces with
  | .ok pieces =>
    let segments ← pieces.mapM (segment enter)
    let _ ← take
    return .format segments token.span
  | .error _ => fail .malformedFormat

/-- Whether the next token is an identifier that is called. -/
def atCall : Parse Bool := do
  let second ← peekSecond
  return (← peekKind) == .identifier && (second == .moduleSep || second == .lParen)

/-- The name and the arguments of a call. -/
def call : Parse (Entity × List Argument) := do
  let function ← entity
  if ← isAt .lParen then return (function, ← callArguments enter)
  else unexpected [.token .lParen]

/-- The text of a variable without its dollar sign. -/
def variableName (token : Token) : String := String.ofList (token.text.toList.drop 1)

/-- The variable `_` has a meaning of its own. -/
def nameOrPlaceholder (token : Token) : Expr :=
  if token.text == "_" then .placeholder token.span else .identifier token.text token.span

/-- An operand without what is written behind it. -/
def primary : Parse Expr := do
  let token ← peek
  match token.kind with
  | .formatString => formatString enter
  | .identifier =>
    if ← atCall then
      let (function, arguments) ← call enter
      return .call function arguments (function.span.through (← lastSpan))
    else return nameOrPlaceholder (← take)
  | .dollarVar =>
    let _ ← take
    return .variable (variableName token) token.span
  | .kwThis =>
    let _ ← take
    return .this token.span
  | .atSign =>
    let _ ← take
    let name ← identifier
    return .metadata ⟨name, token.span.through name.span⟩ token.span
  | .lBracket =>
    let opener ← take
    let items ← enter _ .listItems
    let closer ← expectClosing .rBracket opener
    return .list items (opener.span.through closer.span)
  | .lBrace =>
    let opener ← take
    let items ← enter _ .recordItems
    let closer ← expectClosing .rBrace opener
    return .record items (opener.span.through closer.span)
  | .lParen =>
    let opener ← take
    skipNewlines
    let inner ← expression enter
    skipNewlines
    let closer ← expectClosing .rParen opener
    return .paren inner (opener.span.through closer.span)
  | kind => if kind.isLiteral then literal else unexpected [.expression]

/-- What is written behind an operand; `stop` is the place of its last token. -/
inductive Suffix where
  | member (name : Identifier) (mark : Option OptionalMark) (stop : Span)
  | index (key : Expr) (optional : Bool) (stop : Span)
  | call (function : Entity) (arguments : List Argument) (stop : Span)

/-- An operand with a suffix behind it. -/
def Suffix.apply (receiver : Expr) : Suffix → Expr
  | .member name mark stop => .member receiver name mark (receiver.span.through stop)
  | .index key optional stop => .index receiver key optional (receiver.span.through stop)
  | .call function arguments stop =>
    .methodCall receiver function arguments (receiver.span.through stop)

/-- The tokens that suffixes start with. -/
def suffixOpeners : List TokenKind := [.dot, .dotQuestion, .lBracket]

/-- Whether a suffix is next. -/
def atSuffix : Parse Bool := do return suffixOpeners.contains (← peekKind)

/-- A suffix; the next token is its first one. -/
def suffix : Parse Suffix := do
  let opener ← take
  match opener.kind with
  | .dot =>
    if ← atCall then
      let (function, arguments) ← call enter
      return .call function arguments (← lastSpan)
    else
      let name ← identifier
      let mark := if ← eats .question then some .behind else none
      return .member name mark (← lastSpan)
  | .dotQuestion =>
    let name ← identifier
    return .member name (some .ahead) name.span
  | _ =>
    skipNewlines
    let key ← expression enter
    skipNewlines
    let _ ← expectClosing .rBracket opener
    let optional ← eats .question
    return .index key optional (← lastSpan)

/-- An operand with all of its suffixes. -/
def suffixed : Parse Expr := do
  let receiver ← primary enter
  let suffixes ← whenAhead atSuffix (suffix enter)
  return suffixes.foldl Suffix.apply receiver

/-- The operator that a token in front of an operand is. -/
def unaryOp? : TokenKind → Option UnaryOp
  | .kwNot => some .not
  | .kwMove => some .move
  | .minus => some .neg
  | .plus => some .plus
  | _ => none

/-- A lambda; the next token is its parameter. -/
def lambda : Parse Expr := do
  let parameter := identifierOf (← take)
  let _ ← take
  skipNewlines
  let body ← enter _ (.expression lambdaPrecedence)
  return .lambda parameter body (parameter.span.through body.span)

/-- Whether an identifier and an arrow are next. -/
def atArrow : Parse Bool := do
  return (← peekKind) == .identifier && (← peekSecond) == .fatArrow

/-- An operand of binary operators: a lambda, an operator with its operand behind it,
or an operand with its suffixes. -/
def operand : Parse Expr := do
  match unaryOp? (← peekKind) with
  | some op =>
    let opener ← take
    let operand ← enter _ (.expression op.precedence)
    return .unary op operand (opener.span.through operand.span)
  | none => if ← atArrow then lambda enter else suffixed enter

/-- The operator that a token between operands is, given the kind of the token behind
it, and the number of its tokens. -/
def binaryOp? (first second : TokenKind) : Option (BinaryOp × Nat) :=
  match first with
  | .kwElse => some (.orElse, 1)
  | .kwIf => some (.onlyIf, 1)
  | .kwOr => some (.or, 1)
  | .kwAnd => some (.and, 1)
  | .eqEq => some (.eq, 1)
  | .notEq => some (.notEq, 1)
  | .gt => some (.gt, 1)
  | .gtEq => some (.gtEq, 1)
  | .lt => some (.lt, 1)
  | .ltEq => some (.ltEq, 1)
  | .kwIn => some (.isIn, 1)
  | .kwNot => if second = .kwIn then some (.isNotIn, 2) else none
  | .plus => some (.add, 1)
  | .minus => some (.sub, 1)
  | .star => some (.mul, 1)
  | .slash => some (.div, 1)
  | _ => none

/-- The operator that is next, if its precedence is at least `least`. -/
def peekOperator (least : Nat) : Parse (Option (BinaryOp × Nat)) := do
  return (binaryOp? (← peekKind) (← peekSecond)).filter fun (op, _) => least ≤ op.precedence

/-- An operator and its right operand. -/
def link (least : Nat) : Parse (BinaryOp × Expr) := do
  match ← peekOperator least with
  | some (op, width) =>
    takeSeveral width
    skipNewlines
    return (op, ← enter _ (.expression (op.precedence + 1)))
  | none => unexpected [.expression]

/-- A left operand with an operator and its right operand behind it. -/
def join (left : Expr) (link : BinaryOp × Expr) : Expr :=
  .binary link.1 left link.2 (left.span.through link.2.span)

/-- Operands with operators of a precedence of at least `least` between them. -/
def chain (least : Nat) : Parse Expr := do
  let first ← operand enter
  let links ← whenAhead (return (← peekOperator least).isSome) (link enter least)
  return links.foldl join first

/-- Take a comma and the line ends around it, and say whether an item comes behind
it: a comma may stand before the closing bracket. -/
def anotherItem (closer : TokenKind) : Parse Bool := do
  skipNewlines
  if ← eats .comma then
    skipNewlines
    return !((← isAt closer) || (← isAt .eof))
  else return false

/-- Items between brackets, with commas between them, up to the closing one. -/
def items {α : Type} (item : Parse α) (closer : TokenKind) : Parse (List α) := do
  skipNewlines
  if (← isAt closer) || (← isAt .eof) then return []
  else series item (anotherItem closer)

/-- An expression behind an ellipsis, and the place of both. -/
def spread : Parse (Expr × Span) := do
  let ellipsis ← take
  let value ← expression enter
  return (value, ellipsis.span.through value.span)

/-- An item of a list. -/
def listItem : Parse ListItem := do
  if ← isAt .ellipsis then
    let (value, span) ← spread enter
    return .spread value span
  else return .item (← expression enter)

/-- The key of a field of a record. -/
def recordKey : Parse RecordKey := do
  let token ← peek
  match token.kind with
  | .identifier => return .identifier (identifierOf (← take))
  | .string =>
    match StringLiteral.read? token.text with
    | some value =>
      let _ ← take
      return .string value
    | none => fail (.invalidLiteral token.text)
  | _ => unexpected [.token .identifier, .token .string, .token .ellipsis, .token .rBrace]

/-- An item of a record. -/
def recordItem : Parse RecordItem := do
  if ← isAt .ellipsis then
    let (value, span) ← spread enter
    return .spread value span
  else
    let first ← peek
    let key ← recordKey
    let _ ← expect .colon
    skipNewlines
    let value ← expression enter
    return .field key value (first.span.through value.span)

/-- The arguments of a call behind their opening parenthesis, with the closing one. -/
def argumentsBehind (opener : Token) : Parse (List Argument) := do
  let arguments ← items (argument enter) .rParen
  let _ ← expectClosing .rParen opener
  return arguments

/-- The pattern of an arm. An identifier before an arrow is a pattern, and not the
parameter of a lambda. -/
def pattern : Parse Expr := do
  if ← atArrow then primary enter else expression enter

end PipelineLang.Grammar
