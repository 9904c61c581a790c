/-!
# UTF-8 with replacement

## Main definitions

- `Utf8.encode` — the bytes of a text
- `Utf8.Pending`, `Utf8.step` — a decoder that reads one byte at a time
- `Utf8.decode` — the text of any bytes

## Design notes

Bytes that encode no character are read as U+FFFD, one for each longest run of
bytes that could have been the start of a character. The first byte of a
character fixes how many bytes follow and the range of the second; the others
lie between 80 and BF.
-/

namespace PipelineLang.Utf8

/-- The character that stands for bytes without a meaning. -/
def replacement : Char := '\ufffd'

/-- The bytes of a text. -/
def encode (text : List Char) : List UInt8 := text.flatMap String.utf8EncodeChar

/-- A character of which some bytes have been read. -/
structure Pending where
  /-- The bits read so far. -/
  value : Nat
  /-- The number of bytes that have to follow, at least one. -/
  needed : Nat
  /-- The least next byte. -/
  low : Nat
  /-- The greatest next byte. -/
  high : Nat
deriving Repr, DecidableEq

/-- What the first byte of a character says: a whole character, a character that
goes on, or nothing. -/
def first (byte : UInt8) : List Char × Option Pending :=
  let b := byte.toNat
  if b < 0x80 then ([Char.ofNat b], none)
  else if b < 0xC2 then ([replacement], none)
  else if b < 0xE0 then ([], some ⟨b - 0xC0, 1, 0x80, 0xBF⟩)
  else if b = 0xE0 then ([], some ⟨b - 0xE0, 2, 0xA0, 0xBF⟩)
  else if b = 0xED then ([], some ⟨b - 0xE0, 2, 0x80, 0x9F⟩)
  else if b < 0xF0 then ([], some ⟨b - 0xE0, 2, 0x80, 0xBF⟩)
  else if b = 0xF0 then ([], some ⟨b - 0xF0, 3, 0x90, 0xBF⟩)
  else if b < 0xF4 then ([], some ⟨b - 0xF0, 3, 0x80, 0xBF⟩)
  else if b = 0xF4 then ([], some ⟨b - 0xF0, 3, 0x80, 0x8F⟩)
  else ([replacement], none)

/-- Read one byte: the characters that are complete, and the one that goes on. -/
def step (pending : Option Pending) (byte : UInt8) : List Char × Option Pending :=
  match pending with
  | none => first byte
  | some p =>
    if p.low ≤ byte.toNat && byte.toNat ≤ p.high then
      let value := 64 * p.value + (byte.toNat - 0x80)
      if p.needed ≤ 1 then ([Char.ofNat value], none)
      else ([], some ⟨value, p.needed - 1, 0x80, 0xBF⟩)
    else
      let (chars, next) := first byte
      (replacement :: chars, next)

/-- The text of the bytes that follow a pending character. -/
def decodeFrom (pending : Option Pending) : List UInt8 → List Char
  | [] => if pending.isSome then [replacement] else []
  | byte :: bytes =>
    let (chars, next) := step pending byte
    chars ++ decodeFrom next bytes

/-- The text of any bytes. -/
def decode (bytes : List UInt8) : List Char := decodeFrom none bytes

/-- The text without its first `n` bytes; none if they do not end with a
character or are more than the text has. -/
def dropBytes? : (n : Nat) → List Char → Option (List Char)
  | 0, text => some text
  | _ + 1, [] => none
  | n + 1, c :: cs => if c.utf8Size ≤ n + 1 then dropBytes? (n + 1 - c.utf8Size) cs else none

/-- The text without its first `front` and its last `back` bytes. -/
def trimBytes? (front back : Nat) (text : List Char) : Option (List Char) := do
  let tail ← dropBytes? front text
  let kept ← dropBytes? back tail.reverse
  return kept.reverse

end PipelineLang.Utf8
