import PipelineLang.Source.Span
import PipelineLang.Token.Kind

/-!
# Tokens

A token is a piece of source text with its kind and its place.

## Main definitions

- `Token` — kind, text and span
- `TokenKind.capture?`, `Token.capture?` — the highlighting class of a token

## Design notes

Highlighting depends on the kind alone, save for the word `_`, which is a
variable of the language although it reads as an identifier.
-/

namespace PipelineLang

/-- A piece of source text, what it is, and where it stands. -/
structure Token where
  kind : TokenKind
  text : String
  span : Span
deriving Repr, BEq, DecidableEq, Inhabited

/-- The highlighting class of a kind of token; none for plain text. -/
def TokenKind.capture? : TokenKind → Option String
  | .kwLet | .kwIf | .kwElse | .kwMatch | .kwAnd | .kwOr | .kwNot | .kwIn | .kwMove | .kwThis
  | .question | .dot | .dotQuestion | .ellipsis
  | .lBracket | .rBracket | .lBrace | .rBrace | .colon | .atSign => some "@keyword"
  | .dollarVar => some "@variable.builtin"
  | .trueLit | .falseLit => some "@boolean"
  | .nullLit => some "@constant.builtin"
  | .number | .time | .duration => some "@number"
  | .string | .formatString => some "@string"
  | .ip | .subnet => some "@constant"
  | .comment | .frontmatterOpen | .frontmatterBody | .frontmatterClose => some "@comment"
  | .assign | .fatArrow | .pipe | .moduleSep | .eqEq | .notEq | .gt | .gtEq | .lt | .ltEq
  | .plus | .minus | .star | .slash => some "@operator"
  | .lParen | .rParen => some "@punctuation.bracket"
  | .comma => some "@punctuation.delimiter"
  | .identifier | .newline | .eof => none

namespace Token

/-- The identifiers that are highlighted as variables of the language. -/
def builtinVariables : List String := ["_"]

/-- The highlighting class of a token. -/
def capture? (token : Token) : Option String :=
  if token.kind == .identifier && builtinVariables.contains token.text then
    some "@variable.builtin"
  else
    token.kind.capture?

end Token

end PipelineLang
