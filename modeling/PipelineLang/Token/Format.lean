import PipelineLang.Token.Scanner

/-!
# The pieces of a format string

## Main definitions

- `FormatPiece` — text, or a replacement with the text between its braces
- `Token.formatPieces` — the pieces of a format string token
- `FormatPiece.tokens` — the tokens of a replacement

## Design notes

A format string is one token. What is in it is found by recognising its text again,
as an expression that starts where the token starts.
-/

namespace PipelineLang

/-- A piece of a format string. -/
inductive FormatPiece where
  /-- Text as it is written. -/
  | text (raw : List Char) (span : Span)
  /-- A replacement; `inner` is the text between its braces. -/
  | replacement (inner : List Char) (innerSpan : Span) (span : Span)
deriving Repr, BEq, DecidableEq

namespace FormatPart

/-- The piece that a part of `text` is, where `cursor` stands before `text`. -/
def piece (cursor : Cursor) : FormatPart → FormatPiece
  | .text start stop =>
    .text ((cursor.rest.take stop).drop start) (cursor.spanBetween start stop)
  | .replacement start innerStop stop =>
    .replacement ((cursor.rest.take innerStop).drop (start + 1))
      (cursor.spanBetween (start + 1) innerStop) (cursor.spanBetween start stop)

end FormatPart

/-- The pieces of a format string token. -/
def Token.formatPieces (token : Token) : Except LexicalError (List FormatPiece) :=
  let scanner := Scanner.within token.text.toList token.span
  let cursor := scanner.cursor
  match FormatBody.read (Lexeme.replacement Lexeme.mostLevels) scanner.before cursor.rest with
  | .ok body => .ok (body.parts.map (·.piece cursor))
  | .error fault => .error ⟨fault.cause, cursor.spanBetween fault.start fault.stop⟩

end PipelineLang
