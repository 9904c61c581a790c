import PipelineLang.Literal.Duration
import PipelineLang.Literal.Number
import PipelineLang.Literal.Subnet
import PipelineLang.Literal.Text
import PipelineLang.Token.Basic

/-!
# Literals

## Main definitions

- `Literal` — the literal values of the language, each with its source text
- `Literal.text` — the source text of a literal
- `Literal.ofText?` — the literal that a text spells as a token of a given kind

## Design notes

Every literal keeps its text, so that it can be written again exactly as it was.
Null and the truth values are written in one way only.
-/

namespace PipelineLang

/-- A literal value. -/
inductive Literal where
  | null
  | bool (value : Bool)
  | number (value : Number)
  | string (value : StringLiteral)
  | ip (value : IpLiteral)
  | subnet (value : Subnet)
  | time (text : String)
  | duration (value : Duration)
deriving Repr, BEq, DecidableEq

namespace Literal

/-- The source text of a literal. -/
def text : Literal → String
  | .null => "null"
  | .bool true => "true"
  | .bool false => "false"
  | .number value => value.text
  | .string value => value.text
  | .ip value => value.text
  | .subnet value => value.text
  | .time text => text
  | .duration value => value.text

/-- The literal that a text spells as a token of a given kind; none if the kind
is no literal or its text has no value. -/
def ofText? (kind : TokenKind) (text : String) : Option Literal :=
  match kind with
  | .nullLit => some .null
  | .trueLit => some (.bool true)
  | .falseLit => some (.bool false)
  | .number => some (.number (Number.ofText text))
  | .string => (StringLiteral.read? text).map .string
  | .ip => some (.ip (IpLiteral.ofText text))
  | .subnet => (Subnet.read? text).map .subnet
  | .time => some (.time text)
  | .duration => (Duration.read? text).map .duration
  | _ => none

end Literal

end PipelineLang
