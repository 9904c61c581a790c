import PipelineLang.Token.Basic

/-!
# Token streams

## Main definitions

- `TokenStream` — the tokens ahead and the end behind them
- `TokenStream.ofTokens` — the stream of the tokens of a source
- `TokenStream.peek`, `TokenStream.pass` — look at the next token, pass it

## Design notes

Comments are left out. A stream always ends with an end token, which is never
passed; if the tokens have none, one is put behind them.
-/

namespace PipelineLang

/-- The tokens ahead. -/
structure TokenStream where
  /-- The tokens ahead, up to the end and without it. -/
  rest : List Token
  /-- The place of the token just passed. -/
  last : Option Span
  /-- The token at the end. -/
  stop : Token
deriving Repr, DecidableEq

namespace TokenStream

/-- The tokens that matter to the grammar. -/
def significant (tokens : List Token) : List Token := tokens.filter fun t => !t.kind.isTrivia

/-- The end token behind `tokens` if they have none. -/
def endBehind (tokens : List Token) : Token :=
  ⟨.eof, "", (tokens.getLast?.map (·.span.endPoint)).getD Span.zero⟩

/-- The last of the tokens, or the end behind them if it is no end itself. -/
def finalToken (tokens : List Token) : Token :=
  match tokens.getLast? with
  | some token => if token.kind = .eof then token else endBehind tokens
  | none => endBehind tokens

/-- The stream of the tokens of a source. What stands behind a first end token is
out of reach. -/
def ofTokens (tokens : List Token) : TokenStream :=
  let tokens := significant tokens
  ⟨tokens.takeWhile (·.kind != .eof), none,
    (tokens.find? (·.kind == .eof)).getD (endBehind tokens)⟩

/-- The next token. -/
def peek (stream : TokenStream) : Token := stream.rest.head?.getD stream.stop

/-- The kind of the token behind the next one; the end if there is none. -/
def peekSecond (stream : TokenStream) : TokenKind :=
  match stream.rest with
  | _ :: second :: _ => second.kind
  | _ => .eof

/-- The stream behind the next token. -/
def pass (stream : TokenStream) : TokenStream :=
  match stream.rest with
  | [] => stream
  | token :: rest => { stream with rest := rest, last := some token.span }

/-- The stream behind the next tokens whose kind has the property `p`. -/
def passWhile (p : TokenKind → Bool) (stream : TokenStream) : TokenStream :=
  let passed := stream.rest.takeWhile fun token => p token.kind
  { stream with
    rest := stream.rest.drop passed.length
    last := (passed.getLast?.map (·.span)).or stream.last }

/-- The place of the token just passed, or of the next one if none has been passed. -/
def lastSpan (stream : TokenStream) : Span := stream.last.getD stream.peek.span

end TokenStream

end PipelineLang
