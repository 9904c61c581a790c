/-!
# Classes of ASCII characters

## Main definitions

- `Ascii.isHexDigit`, `Ascii.digitValue` — hexadecimal digits and what they count
- `Ascii.isWordStart`, `Ascii.isWordChar` — the characters of words
- `Ascii.isBlank` — the characters that separate tokens on a line
- `Ascii.number` — the number that a run of digits denotes

## Design notes

The grammar knows letters and digits of ASCII alone; other characters occur only
inside strings, comments and frontmatter.
-/

namespace PipelineLang.Ascii

/-- Whether `c` is a decimal digit or one of the letters `a` to `f` of either case. -/
def isHexDigit (c : Char) : Bool :=
  c.isDigit || ('a' ≤ c && c ≤ 'f') || ('A' ≤ c && c ≤ 'F')

/-- The number a hexadecimal digit counts; zero for any other character. -/
def digitValue (c : Char) : Nat :=
  if c.isDigit then c.toNat - '0'.toNat
  else if 'a' ≤ c && c ≤ 'f' then c.toNat - 'a'.toNat + 10
  else if 'A' ≤ c && c ≤ 'F' then c.toNat - 'A'.toNat + 10
  else 0

/-- The number that `digits` denote in base `base`, the first the most significant. -/
def number (base : Nat) (digits : List Char) : Nat :=
  digits.foldl (fun value c => base * value + digitValue c) 0

/-- Whether a word may start with `c`. -/
def isWordStart (c : Char) : Bool := c.isAlpha || c == '_'

/-- Whether `c` may stand within a word. -/
def isWordChar (c : Char) : Bool := c.isAlphanum || c == '_'

/-- The number of characters of the word at the head of a text. -/
def wordLength (text : List Char) : Nat := (text.takeWhile isWordChar).length

/-- Whether `c` is a space, a tab or a carriage return. -/
def isBlank (c : Char) : Bool := c == ' ' || c == '\t' || c == '\r'

end PipelineLang.Ascii
