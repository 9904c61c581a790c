import PipelineLang.Text.Ascii

/-!
# Gaps between tokens

A gap consists of blanks and of continuations. A continuation is a backslash, any
number of blanks and a line feed: it lets a line go on behind its end.

## Main definitions

- `Gap.continuation?` — the characters of a continuation behind its backslash
- `Gap.length` — the characters of the gap at the head of a text
-/

namespace PipelineLang.Gap

/-- The number of characters from behind the backslash of a continuation up to and
including its line feed; none if something other than a blank comes first. -/
def continuation? : List Char → Option Nat
  | [] => none
  | c :: rest =>
    if c = '\n' then some 1
    else if Ascii.isBlank c then (continuation? rest).map (1 + ·)
    else none

/-- The number of characters of a gap that starts with the first `skip` characters
of a text. -/
def lengthFrom : (skip : Nat) → List Char → Nat
  | _, [] => 0
  | skip + 1, _ :: rest => 1 + lengthFrom skip rest
  | 0, c :: rest =>
    if Ascii.isBlank c then 1 + lengthFrom 0 rest
    else if c = '\\' then
      match continuation? rest with
      | some n => 1 + lengthFrom n rest
      | none => 0
    else 0

/-- The number of characters of the gap at the head of a text. -/
def length (text : List Char) : Nat := lengthFrom 0 text

end PipelineLang.Gap
