import PipelineLang.Grammar.Statement
import PipelineLang.Syntax.Program

/-!
# The grammar of programs

## Main definitions

- `Goal.rule` — the rule for a nested part
- `enterTo` — nested parts to some depth
- `Rejection` — why tokens are no program, and what could be read of one
- `Program.ofTokens` — the program that tokens are
- `Program.ofSource` — the program of a source

## Design notes

The nesting is counted down from its limit; where nothing is left of it, no nested
part is read. If tokens are no program, the statements before the fault make up a
fragment, which is a program too.
-/

namespace PipelineLang

/-- The rule for a nested part, given how to read parts that are nested in it. -/
def Goal.rule (enter : Enter) : {α : Type} → Goal α → Parse α
  | _, .expression least => Grammar.chain enter least
  | _, .listItems => Grammar.items (Grammar.listItem enter) .rBracket
  | _, .recordItems => Grammar.items (Grammar.recordItem enter) .rBrace
  | _, .arguments opener => Grammar.argumentsBehind enter opener
  | _, .conditional => Grammar.conditional enter
  | _, .block => Grammar.block enter
  | _, .arms opener => Grammar.armsBehind enter opener
  | _, .pipeline opener => Grammar.pipelineBehind enter opener

/-- Read parts that may be nested `depth` deep; `limit` is what is told of the depth
if they are nested more. -/
def enterTo (limit : Nat) : (depth : Nat) → Enter
  | 0 => fun _ _ => Parse.fail (.nestingTooDeep limit)
  | depth + 1 => fun _ goal => goal.rule (enterTo limit depth)

/-- Why tokens are no program, and what could be read of one. -/
structure Rejection where
  error : SyntaxError
  fragment : Program

namespace Grammar

open Parse

/-- Frontmatter; the next token opens it. -/
def frontmatter : Parse FrontmatterBlock := do
  let opener ← take
  let body ← eat .frontmatterBody
  let closer ← eat .frontmatterClose
  return ⟨(body.map (·.text)).getD "", closer.isSome, opener.span.through (← lastSpan)⟩

/-- Frontmatter with the line ends around it, if there is any. -/
def frontmatter? : Parse (Option FrontmatterBlock) := do
  skipNewlines
  if ← isAt .frontmatterOpen then
    let block ← frontmatter
    skipNewlines
    return some block
  else return none

/-- The statements from a place on, up to the end or an error. -/
def statementsToEnd (enter : Enter) (stream : TokenStream) : Harvest Statement :=
  if stream.peek.kind = .eof then ⟨[], none, stream⟩
  else harvestAll (statement enter) (anotherStatement .eof) stream

end Grammar

namespace Program

/-- The nesting that a program may have where nothing else is said. -/
def defaultLimit : Nat := 64

/-- The program that tokens are. Blocks, brackets and expressions may be nested
`limit` deep. -/
def ofTokens (limit : Nat) (tokens : List Token) : Except Rejection Program :=
  let stream := TokenStream.ofTokens tokens
  let final := TokenStream.finalToken (TokenStream.significant tokens)
  let span := stream.peek.span.through final.span
  match Grammar.frontmatter? stream with
  | .error error _ => .error ⟨error, none, none, span⟩
  | .ok frontmatter behind =>
    let found := Grammar.statementsToEnd (enterTo limit limit) behind
    let program := ⟨frontmatter, Pipeline.ofStatements? found.items, span⟩
    match found.error with
    | none => .ok program
    | some error => .error ⟨error, program⟩

end Program

/-- Why a source is no program. -/
inductive SourceError where
  | lexical (error : LexicalError)
  | rejected (rejection : Rejection)

namespace SourceError

/-- The wording of an error, with its place. -/
def message : SourceError → String
  | .lexical error => error.message
  | .rejected rejection => rejection.error.message

/-- The place of an error. -/
def span : SourceError → Span
  | .lexical error => error.span
  | .rejected rejection => rejection.error.span

end SourceError

/-- The program of a source. -/
def Program.ofSource (limit : Nat) (source : String) : Except SourceError Program :=
  match tokenize source with
  | .error error => .error (.lexical error)
  | .ok tokens =>
    match Program.ofTokens limit tokens with
    | .ok program => .ok program
    | .error rejection => .error (.rejected rejection)

end PipelineLang
