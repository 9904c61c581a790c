import PipelineLang.Text.Escape

/-!
# Strings

A string is written in single or double quotes, with an optional `b` in front
for a string of bytes. With an `r` in front of the quote it is raw: escapes have
no meaning, and number signs around the quotes let it hold quotes itself.

## Main definitions

- `StringValue` — the text or the bytes that a string stands for
- `StringLiteral`, `StringLiteral.read?` — a string as it was written, and its
  reading from text

## Design notes

Reading cuts the body out by counting: a plain string loses one byte on either
side, a raw one as many as its number signs and one more. A cut inside a
character, or a text too short for it, is no string.
-/

namespace PipelineLang

/-- What a string stands for. -/
inductive StringValue where
  | text (value : String)
  | bytes (value : List UInt8)
deriving Repr, BEq, DecidableEq

namespace StringValue

/-- The text of a string that is not a string of bytes. -/
def text? : StringValue → Option String
  | .text value => some value
  | .bytes _ => none

/-- The bytes of a string of bytes. -/
def bytes? : StringValue → Option (List UInt8)
  | .text _ => none
  | .bytes value => some value

end StringValue

/-- A string as it was written. -/
structure StringLiteral where
  /-- The source text, quotes included. -/
  text : String
  value : StringValue
  raw : Bool
deriving Repr, BEq, DecidableEq

namespace StringLiteral

/-- Whether a text has the mark of a string of bytes, and the text behind it. -/
def splitByteMark : List Char → Bool × List Char
  | 'b' :: rest => (true, rest)
  | text => (false, text)

/-- The number of number signs at the head of a text. -/
def fences (text : List Char) : Nat := (text.takeWhile (· == '#')).length

/-- The value of a raw string, given what stands behind the `r`. -/
def rawValue? (bytes : Bool) (rest : List Char) : Option StringValue := do
  let cut := fences rest + 1
  let body ← Utf8.trimBytes? cut cut rest
  return if bytes then .bytes (Utf8.encode body) else .text (String.ofList body)

/-- The value of a string with escapes, given its text from the opening quote on. -/
def plainValue? (bytes : Bool) (rest : List Char) : Option StringValue := do
  let body ← Utf8.trimBytes? 1 1 rest
  let decoded := Escape.decode (Utf8.encode body)
  return if bytes then .bytes decoded else .text (String.ofList (Utf8.decode decoded))

/-- The string that a text spells. -/
def read? (text : String) : Option StringLiteral :=
  match splitByteMark text.toList with
  | (bytes, 'r' :: rest) => (rawValue? bytes rest).map (⟨text, ·, true⟩)
  | (bytes, rest) => (plainValue? bytes rest).map (⟨text, ·, false⟩)

end StringLiteral

end PipelineLang
