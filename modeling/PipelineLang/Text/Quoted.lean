import PipelineLang.Text.Combining
import PipelineLang.Text.Unprintable

/-!
# Quoted text

## Main definitions

- `Quoted.encodeChar` — a character between double quotes
- `Quoted.encode` — a text between double quotes

## Design notes

A double quote and a backslash get a backslash. Characters that would not be seen on
their own are written as numbers, unless they have a short escape. Single quotes stay.
-/

namespace PipelineLang.Quoted

/-- The characters with a short escape, and the letter behind its backslash. -/
def shortEscapes : List (Char × Char) :=
  [('\x00', '0'), ('\t', 't'), ('\r', 'r'), ('\n', 'n'), ('\x22', '\x22'), ('\\', '\\')]

/-- Whether a character is written as a number. The visible characters of ASCII are
told apart first, since most text consists of them. -/
def isHidden (c : Char) : Bool :=
  !(' ' ≤ c && c ≤ '~') && (Combining.contains c || Unprintable.contains c)

/-- A character between double quotes. -/
def encodeChar (c : Char) : List Char :=
  match shortEscapes.lookup c with
  | some letter => ['\\', letter]
  | none =>
    if isHidden c then ['\\', 'u', '\x7b'] ++ Nat.toDigits 16 c.toNat ++ ['\x7d'] else [c]

/-- A text between double quotes. -/
def encode (text : String) : String :=
  "\x22" ++ String.ofList (text.toList.flatMap encodeChar) ++ "\x22"

end PipelineLang.Quoted
