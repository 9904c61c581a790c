import PipelineLang.Source.Span

/-!
# A cursor over source text

A cursor stands between two characters of a source. It holds the text that is
still ahead and the position reached, so the span of a piece of text is the
position before it together with the byte offset after it.

## Main definitions

- `Cursor` — the text ahead, the position, and the character just passed
- `Cursor.advance`, `Cursor.advanceBy` — pass one character, or several
- `Cursor.ofSource` — the start of a source, behind a byte order mark if it has one
- `Cursor.ofOffset` — the place of a byte offset
- `Cursor.spanBetween` — the span of a range of the characters ahead

## Design notes

Positions are computed only here. Whatever recognises text works on lists of
characters and answers with counts of characters, which a cursor turns into
spans.
-/

namespace PipelineLang

/-- A place in a source text. -/
structure Cursor where
  /-- The characters ahead. -/
  rest : List Char
  /-- The byte offset of the place. -/
  offset : Nat
  /-- The line of the place, from one. -/
  line : Nat
  /-- The column of the place, from one. -/
  column : Nat
  /-- The character just passed; none at the start of a text, and none right
  behind a leading byte order mark. -/
  last : Option Char
deriving Repr, DecidableEq

namespace Cursor

/-- The character that may mark the start of a source and is no part of its text. -/
def byteOrderMark : Char := '\ufeff'

/-- The start of a source. A leading byte order mark counts in offsets but not
in columns. -/
def ofSource : List Char → Cursor
  | [] => ⟨[], 0, 1, 1, none⟩
  | c :: cs =>
    if c = byteOrderMark then ⟨cs, c.utf8Size, 1, 1, none⟩ else ⟨c :: cs, 0, 1, 1, none⟩

/-- The start of `text`, a part of a larger source that begins where `origin` does. -/
def within (text : List Char) (origin : Span) : Cursor :=
  ⟨text, origin.start, origin.line, origin.column, none⟩

/-- Pass one character: a line feed leads to the next line, any other character
to the next column. -/
def advance (here : Cursor) : Cursor :=
  match here.rest with
  | [] => here
  | c :: cs =>
    if c = '\n' then ⟨cs, here.offset + c.utf8Size, here.line + 1, 1, some c⟩
    else ⟨cs, here.offset + c.utf8Size, here.line, here.column + 1, some c⟩

/-- Pass `n` characters, or all that are left if there are fewer. -/
def advanceBy (here : Cursor) : Nat → Cursor
  | 0 => here
  | n + 1 => here.advance.advanceBy n

/-- The number of characters of `source` that end at or before the byte `offset`. -/
def charactersBefore (offset : Nat) : List Char → Nat
  | [] => 0
  | c :: cs =>
    if c.utf8Size ≤ offset then 1 + charactersBefore (offset - c.utf8Size) cs else 0

/-- The place of the byte `offset`. An offset inside a character stands for the
start of that character, one beyond the end for the end. -/
def ofOffset (source : List Char) (offset : Nat) : Cursor :=
  let start := ofSource source
  start.advanceBy (charactersBefore (offset - start.offset) start.rest)

/-- Whether a line starts here. -/
def atLineStart (here : Cursor) : Bool :=
  here.last == none || here.last == some '\n'

/-- The span from the `first`-th of the characters ahead up to but not including
the `last`-th. -/
def spanBetween (here : Cursor) (first last : Nat) : Span :=
  let start := here.advanceBy first
  ⟨start.offset, (here.advanceBy last).offset, start.line, start.column⟩

end Cursor

end PipelineLang
