import PipelineLang.Grammar.Fault
import PipelineLang.Grammar.TokenStream

/-!
# Parsing rules

A rule takes tokens from the head of a stream and answers with a tree, or says why it
cannot.

## Main definitions

- `Parse` — rules
- `Parse.expect`, `Parse.eat`, `Parse.skip` — rules for single tokens
- `Parse.attempt`, `Parse.commit` — rules that may leave the stream as it was
- `Parse.series` — a rule again and again
- `Parse.whenAhead` — such a series, which may be empty

## Design notes

A rule that fails leaves the stream at the place of the fault. `series` is the only
loop: what it takes in one turn is taken for good, so the number of tokens ahead
bounds its turns.
-/

namespace PipelineLang

/-- A rule that yields an `α`. -/
abbrev Parse (α : Type) := EStateM SyntaxError TokenStream α

namespace Parse

variable {α : Type}

/-- The next token, which is not taken. -/
def peek : Parse Token := fun stream => .ok stream.peek stream

/-- The kind of the next token. -/
def peekKind : Parse TokenKind := fun stream => .ok stream.peek.kind stream

/-- The kind of the token behind the next one. -/
def peekSecond : Parse TokenKind := fun stream => .ok stream.peekSecond stream

/-- Whether the next token has the kind `kind`. -/
def isAt (kind : TokenKind) : Parse Bool := fun stream => .ok (stream.peek.kind == kind) stream

/-- The place of the token taken last. -/
def lastSpan : Parse Span := fun stream => .ok stream.lastSpan stream

/-- Fail at the next token. -/
def fail (cause : SyntaxCause) : Parse α := fun stream =>
  .error ⟨cause, stream.peek.span⟩ stream

/-- Fail because the next token is none of what could stand here. -/
def unexpected (expected : List Expectation) : Parse α := fun stream =>
  fail (.unexpected expected stream.peek.kind) stream

/-- Fail because `opener` is not closed. -/
def unclosed (opener : Token) : Parse α := fail (.unclosed opener.kind opener.span)

/-- Take the next token; the end stays. -/
def take : Parse Token := fun stream => .ok stream.peek stream.pass

/-- Take the next `count` tokens. -/
def takeSeveral : (count : Nat) → Parse Unit
  | 0 => return ()
  | count + 1 => do
    let _ ← take
    takeSeveral count

/-- Take the next token if it has the kind `kind`. -/
def eat (kind : TokenKind) : Parse (Option Token) := do
  if ← isAt kind then return some (← take) else return none

/-- Take the next token if it has the kind `kind`, and say whether it has. -/
def eats (kind : TokenKind) : Parse Bool := do return (← eat kind).isSome

/-- Take the next token, which must have the kind `kind`. -/
def expect (kind : TokenKind) : Parse Token := do
  match ← eat kind with
  | some token => return token
  | none => unexpected [.token kind]

/-- Take the bracket of the kind `kind` that closes `opener`. -/
def expectClosing (kind : TokenKind) (opener : Token) : Parse Token := do
  if ← isAt .eof then unclosed opener else expect kind

/-- Take all next tokens of some kinds, and say whether there were any. -/
def skip (kinds : List TokenKind) : Parse Bool := fun stream =>
  .ok (kinds.contains stream.peek.kind) (stream.passWhile kinds.contains)

/-- Take line ends. -/
def skipNewlines : Parse Unit := do
  let _ ← skip [.newline]

/-- What `rule` yields, or none, with the stream as it was, if it yields none or
fails. -/
def attempt (rule : Parse (Option α)) : Parse (Option α) := fun stream =>
  match rule stream with
  | .ok (some a) behind => .ok (some a) behind
  | .ok none _ => .ok none stream
  | .error _ _ => .ok none stream

/-- What `rule` yields, with the stream as it was if it yields none. -/
def commit (rule : Parse (Option α)) : Parse (Option α) := fun stream =>
  match rule stream with
  | .ok (some a) behind => .ok (some a) behind
  | .ok none _ => .ok none stream
  | .error error behind => .error error behind

/-- Apply `rule` to another stream and leave this one as it is. -/
def within (inner : TokenStream) (rule : Parse α) : Parse α := fun stream =>
  match rule inner with
  | .ok a _ => .ok a stream
  | .error error _ => .error error stream

/-- What a series has yielded when it ended. -/
structure Harvest (α : Type) where
  items : List α
  /-- The error that ended the series, if one did. -/
  error : Option SyntaxError
  behind : TokenStream

/-- At most `turns` items, from the place of a first item on. Behind each item
`again` says whether there is another one. -/
def harvest (item : Parse α) (again : Parse Bool) : (turns : Nat) → TokenStream → Harvest α
  | 0, stream => ⟨[], none, stream⟩
  | turns + 1, stream =>
    match item stream with
    | .error error behind => ⟨[], some error, behind⟩
    | .ok a behind =>
      match again behind with
      | .error error behind => ⟨[a], some error, behind⟩
      | .ok false behind => ⟨[a], none, behind⟩
      | .ok true behind =>
        let others := harvest item again turns behind
        { others with items := a :: others.items }

/-- All items of a series, up to its end or an error. Each item takes a token. -/
def harvestAll (item : Parse α) (again : Parse Bool) (stream : TokenStream) : Harvest α :=
  harvest item again (stream.rest.length + 1) stream

/-- One or more items. Behind each of them `again` says whether there is another one. -/
def series (item : Parse α) (again : Parse Bool) : Parse (List α) := fun stream =>
  let found := harvestAll item again stream
  match found.error with
  | none => .ok found.items found.behind
  | some error => .error error found.behind

/-- Any number of items. Before each of them `ahead` says whether there is one. -/
def whenAhead (ahead : Parse Bool) (item : Parse α) : Parse (List α) := do
  if ← ahead then series item ahead else return []

end Parse

end PipelineLang
