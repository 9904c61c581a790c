import PipelineLang.Token.Basic

/-!
# Faults of source text

## Main definitions

- `LexicalCause` — why a text has no next token
- `LexicalCause.attempted?` — the kind of token it was taken for
- `LexicalError` — a cause and where it is
- `LexicalFault` — the same with places counted from the head of a text

## Design notes

Whatever recognises tokens counts characters from where a token starts and knows
no spans, so it answers with a `LexicalFault`. A fault also says which kind of
token was the last one before it, for a reader that goes on behind it.
-/

namespace PipelineLang

/-- Why a text has no next token. -/
inductive LexicalCause where
  /-- A quoted string does not end. -/
  | unterminatedString
  /-- A raw string between `fences` fences does not end. -/
  | unterminatedRawString (fences : Nat)
  /-- A format string does not end. -/
  | unterminatedFormatString
  /-- A replacement in a format string does not end. -/
  | unterminatedReplacement
  /-- A block comment does not end. -/
  | unterminatedComment
  /-- A backslash stands before a character that makes no escape with it. -/
  | invalidEscape (character : Char)
  /-- A raw string has more fences than are allowed. -/
  | tooManyFences (fences : Nat)
  /-- No token starts with the character. -/
  | unexpectedCharacter (character : Char)
  /-- Format strings lie within each other more than `limit` deep. -/
  | nestingTooDeep (limit : Nat)
deriving Repr, BEq, DecidableEq

namespace LexicalCause

/-- The most fences that a raw string may have. -/
def mostFences : Nat := 8

/-- The kind of token that was being read when the cause arose. -/
def attempted? : LexicalCause → Option TokenKind
  | .unterminatedString | .unterminatedRawString _ | .invalidEscape _ | .tooManyFences _ =>
    some .string
  | .unterminatedFormatString | .unterminatedReplacement | .nestingTooDeep _ =>
    some .formatString
  | .unterminatedComment => some .comment
  | .unexpectedCharacter _ => none

/-- The wording of a cause. -/
def message : LexicalCause → String
  | .unterminatedString => "unterminated string"
  | .unterminatedRawString fences =>
    s!"unterminated raw string, expected closing quote followed by {fences} '#'"
  | .unterminatedFormatString => "unterminated format string"
  | .unterminatedReplacement => "unterminated format replacement, expected '\x7d'"
  | .unterminatedComment => "unterminated block comment"
  | .invalidEscape c => "invalid escape sequence: \\" ++ String.singleton c
  | .tooManyFences fences =>
    s!"raw string has {fences} '#' fences, at most {mostFences} are allowed"
  | .unexpectedCharacter c => s!"unexpected character: {c}"
  | .nestingTooDeep limit => s!"format strings nested more than {limit} levels deep"

end LexicalCause

/-- A cause and the span of source text it is about. -/
structure LexicalError where
  cause : LexicalCause
  span : Span
deriving Repr, BEq, DecidableEq

namespace LexicalError

/-- The wording of an error, with its place. -/
def message (error : LexicalError) : String :=
  s!"{error.cause.message} at line {error.span.line}, column {error.span.column}"

end LexicalError

/-- A cause and its place in a text, in characters from the head of the text. -/
structure LexicalFault where
  cause : LexicalCause
  /-- The first character that the fault is about. -/
  start : Nat
  /-- The character behind the last one that has been read. -/
  stop : Nat
  /-- The kind of the last token before the fault, comments apart. -/
  previous : Option TokenKind
deriving Repr, BEq, DecidableEq

namespace LexicalFault

/-- The same fault, counted from a place `n` characters earlier. -/
def shift (fault : LexicalFault) (n : Nat) : LexicalFault :=
  { fault with start := n + fault.start, stop := n + fault.stop }

end LexicalFault

end PipelineLang
