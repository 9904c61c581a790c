import PipelineLang.Text.Ascii
import PipelineLang.Text.Utf8

/-!
# Backslash escapes

## Main definitions

- `Escape.length?` — the characters of a well-formed escape
- `Escape.decode` — the bytes that a text with escapes stands for
- `Escape.decodeFormat` — the same for the text of a format string, where doubled
  braces stand for one

## Design notes

Decoding asks for no well-formed text: an unknown escape stands for its
character, a bad byte escape for a question mark, a bad scalar for U+FFFD. A byte
escape always covers two bytes and a scalar escape everything up to its closing
brace, whether they are digits or not.
-/

namespace PipelineLang.Escape

/-- The character that starts an escape. -/
def backslash : Char := '\\'

/-- The characters that stand for themselves or for a control character when a
backslash is before them. -/
def simple : List Char := ['n', 'r', 't', '0', '\\', '\x22', '\x27']

/-- The number of characters after the backslash of a well-formed escape; none if
the escape is not well-formed. `inFormat` allows escaped braces. The end of the
text counts as an escape of no characters. -/
def length? (inFormat : Bool) : List Char → Option Nat
  | [] => some 0
  | 'x' :: a :: b :: _ =>
    if Ascii.isHexDigit a && Ascii.isHexDigit b then some 3 else none
  | 'u' :: '\x7b' :: rest =>
    let digits := (rest.takeWhile Ascii.isHexDigit).length
    if 1 ≤ digits && digits ≤ 6 && (rest.drop digits).head? == some '\x7d' then
      some (3 + digits)
    else none
  | c :: _ =>
    if simple.contains c || (inFormat && (c == '\x7b' || c == '\x7d')) then some 1 else none

/-- The byte as a character of the first 256. -/
def asChar (byte : UInt8) : Char := Char.ofNat byte.toNat

/-- The number that hexadecimal digits spell; a plus sign may stand before them. -/
def hexNumber? (bytes : List UInt8) : Option Nat :=
  let digits := match bytes.map asChar with
    | '+' :: digits => digits
    | digits => digits
  if digits.isEmpty || !digits.all Ascii.isHexDigit then none
  else some (Ascii.number 16 digits)

/-- The byte that the two digits of a byte escape denote. -/
def byteValue (digits : List UInt8) : UInt8 :=
  match digits with
  | [a, b] => match hexNumber? [a, b] with
    | some value => UInt8.ofNat value
    | none => '?'.toUInt8
  | _ => '?'.toUInt8

/-- The character that the digits of a scalar escape denote. -/
def scalarValue (digits : List UInt8) : Char :=
  match hexNumber? digits with
  | some value => if value.isValidChar then Char.ofNat value else Utf8.replacement
  | none => Utf8.replacement

/-- The number of bytes before the closing brace of a scalar escape, or of all
bytes if it has none. -/
def scalarLength (bytes : List UInt8) : Nat :=
  (bytes.takeWhile (· != '\x7d'.toUInt8)).length

/-- The bytes that a text with escapes stands for, after its first `skip` bytes. -/
def decodeFrom : (skip : Nat) → List UInt8 → List UInt8
  | _, [] => []
  | skip + 1, _ :: rest => decodeFrom skip rest
  | 0, [byte] => [byte]
  | 0, byte :: mark :: rest =>
    if byte != backslash.toUInt8 then byte :: decodeFrom 0 (mark :: rest)
    else match asChar mark with
      | 'n' => '\n'.toUInt8 :: decodeFrom 0 rest
      | 'r' => '\r'.toUInt8 :: decodeFrom 0 rest
      | 't' => '\t'.toUInt8 :: decodeFrom 0 rest
      | '0' => 0 :: decodeFrom 0 rest
      | 'x' => byteValue (rest.take 2) :: decodeFrom 2 rest
      | 'u' =>
        let length := scalarLength rest
        String.utf8EncodeChar (scalarValue ((rest.take length).drop 1))
          ++ decodeFrom (length + 1) rest
      | _ => mark :: decodeFrom 0 rest

/-- The bytes that a text with escapes stands for. -/
def decode (bytes : List UInt8) : List UInt8 := decodeFrom 0 bytes

/-- The number of characters after a backslash that belong to its escape. -/
def extent : List Char → Nat
  | [] => 0
  | 'x' :: rest => 1 + min 2 rest.length
  | 'u' :: rest => 1 + min (1 + (rest.takeWhile (· != '\x7d')).length) rest.length
  | _ :: _ => 1

/-- The bytes that the text of a format string stands for, after its first `skip`
characters. -/
def decodeFormatFrom : (skip : Nat) → List Char → List UInt8
  | _, [] => []
  | skip + 1, _ :: rest => decodeFormatFrom skip rest
  | 0, c :: rest =>
    if (c == '\x7b' || c == '\x7d') && rest.head? == some c then
      c.toUInt8 :: decodeFormatFrom 1 rest
    else if c == backslash then
      decode (Utf8.encode (c :: rest.take (extent rest))) ++ decodeFormatFrom (extent rest) rest
    else String.utf8EncodeChar c ++ decodeFormatFrom 0 rest

/-- The bytes that the text of a format string stands for. -/
def decodeFormat (text : List Char) : List UInt8 := decodeFormatFrom 0 text

end PipelineLang.Escape
