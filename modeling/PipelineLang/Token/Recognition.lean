import PipelineLang.Source.Cursor
import PipelineLang.Token.Gap
import PipelineLang.Token.Quoted

/-!
# Recognising tokens

A format string holds replacements, a replacement holds tokens, and a token may be
a format string again. The nesting is bounded, so recognition goes down level by
level.

## Main definitions

- `FormatPart` — a piece of a format string, in characters from its head
- `FormatBody.read` — the pieces of a format string
- `Replacement.read` — where a replacement ends
- `Lexeme.replacement` — the same, to a number of levels
- `Lexeme.recognize` — the token at the head of a text

## Design notes

Each reader is given the reader of the tokens one level below it. Below the last
level a replacement is refused.
-/

namespace PipelineLang

/-- A piece of a format string, in characters from the head of the format string. -/
inductive FormatPart where
  /-- Text, with its escapes and doubled braces. -/
  | text (start stop : Nat)
  /-- A replacement between braces; `innerStop` is the place of its closing brace. -/
  | replacement (start innerStop stop : Nat)
deriving Repr, BEq, DecidableEq

/-- The extent of a replacement, in characters from its opening brace. -/
structure Replacement where
  /-- The place of the closing brace. -/
  innerStop : Nat
deriving Repr, BEq, DecidableEq

namespace Replacement

/-- The number of characters of a replacement, its braces included. -/
def length (replacement : Replacement) : Nat := replacement.innerStop + 1

/-- What has been read of a replacement. -/
structure State where
  /-- The braces that have been opened within it and not closed. -/
  depth : Nat
  before : Before

/-- The place of the closing brace of a replacement, which `text` starts with;
`token` reads the tokens in it. Braces in it come in pairs. -/
def read (token : Before → List Char → Except LexicalFault Lexeme) (text : List Char) :
    Except LexicalFault Replacement :=
  walk stop finish 0 1 ⟨0, ⟨some .lParen, text.head?⟩⟩ (text.drop 1)
where
  /-- What is decided before a token and the gap that leads to it. -/
  stop (position : Nat) (state : State) (ahead : List Char) :
      Stride State (Except LexicalFault Replacement) :=
    let gap := Gap.length ahead
    let text := ahead.drop gap
    let before := state.before.pass gap ahead
    match token before text with
    | .error fault => .done (.error (fault.shift (position + gap)))
    | .ok lexeme =>
      let go (depth : Nat) : Stride State (Except LexicalFault Replacement) :=
        .go (gap + lexeme.length - 1) ⟨depth, before.passToken lexeme text⟩
      match lexeme.kind, state.depth with
      | .eof, _ => .done (finish (position + gap) state)
      | .lBrace, n => go (n + 1)
      | .rBrace, 0 => .done (.ok ⟨position + gap⟩)
      | .rBrace, n + 1 => go n
      | _, n => go n
  /-- The answer if the text ends before the replacement does. -/
  finish (position : Nat) (state : State) : Except LexicalFault Replacement :=
    .error ⟨.unterminatedReplacement, 0, position, state.before.previous⟩

end Replacement

/-- The pieces of a format string and the number of its characters. -/
structure FormatBody where
  parts : List FormatPart
  length : Nat
deriving Repr, BEq, DecidableEq

namespace FormatBody

/-- What has been read of a format string. -/
structure State where
  /-- The pieces, the last one first. -/
  parts : List FormatPart
  /-- Where the text that is being read started. -/
  textStart : Option Nat
  /-- The kind of the last token. -/
  previous : Option TokenKind

namespace State

/-- The pieces with the text that ends at `position`, if there is one. -/
def partsUpTo (state : State) (position : Nat) : List FormatPart :=
  match state.textStart with
  | some start => .text start position :: state.parts
  | none => state.parts

/-- The state within text, which starts at `position` unless it has started before. -/
def inText (state : State) (position : Nat) : State :=
  { state with textStart := some (state.textStart.getD position) }

end State

/-- The bytes that open a format string. -/
def openingBytes : Nat := 2

/-- The pieces of the format string at the head of `text`, behind the bytes that open
it; `replacement` reads its replacements. -/
def read (replacement : Option TokenKind → List Char → Except LexicalFault Replacement)
    (before : Before) (text : List Char) : Except LexicalFault FormatBody :=
  let opening := Cursor.charactersBefore openingBytes text
  walk stop finish 0 opening ⟨[], none, before.previous⟩ (text.drop opening)
where
  /-- What is decided at a character between the quotes. -/
  stop (position : Nat) (state : State) :
      List Char → Stride State (Except LexicalFault FormatBody)
    | [] => .done (finish position state)
    | c :: rest =>
      let doubled := rest.head? == some c
      if c = '\x22' then
        .done (.ok ⟨(state.partsUpTo position).reverse, position + 1⟩)
      else if c = '\x7b' && !doubled then
        match replacement state.previous (c :: rest) with
        | .error fault => .done (.error (fault.shift position))
        | .ok found =>
          let part := FormatPart.replacement position (position + found.innerStop)
            (position + found.length)
          .go (found.length - 1) ⟨part :: state.partsUpTo position, none, some .rBrace⟩
      else if c = Escape.backslash then
        match Escape.length? true rest with
        | some n => .go n (state.inText position)
        | none =>
          .done (.error ⟨.invalidEscape (rest.head?.getD c), position, position + 2,
            state.previous⟩)
      else if c = '\x7b' || (c = '\x7d' && doubled) then .go 1 (state.inText position)
      else .go 0 (state.inText position)
  /-- The answer if the text ends before the format string does. -/
  finish (position : Nat) (state : State) : Except LexicalFault FormatBody :=
    .error ⟨.unterminatedFormatString, 0, position, state.previous⟩

end FormatBody

namespace Lexeme

/-- The levels that replacements may be nested. -/
def mostLevels : Nat := 64

/-- The token at the head of a text, where no gap is; the end of the text is a token
of no characters. `replacement` reads the replacements of format strings. -/
def recognizeWith
    (replacement : Option TokenKind → List Char → Except LexicalFault Replacement)
    (before : Before) (text : List Char) : Except LexicalFault Lexeme :=
  match text with
  | [] => .ok ⟨.eof, 0⟩
  | '\n' :: _ => .ok ⟨.newline, 1⟩
  | '/' :: '/' :: _ => .ok (ofLineComment text)
  | '/' :: '*' :: _ => ofBlockComment before text
  | '\x22' :: _ => ofQuoted before 0 text
  | '\x27' :: _ => ofQuoted before 0 text
  | c :: rest =>
    let quoteNext := rest.head? == some '\x22'
    if c = 'b' && (quoteNext || rest.head? == some '\x27') then ofQuoted before 1 text
    else if c = 'b' && rest.head? == some 'r' && opensRaw (rest.drop 1) then ofRaw before 2 text
    else if c = 'r' && opensRaw rest then ofRaw before 1 text
    else if c = 'f' && quoteNext then
      (FormatBody.read replacement before text).map fun body => ⟨.formatString, body.length⟩
    else if c = '$' then
      match wordAhead rest with
      | 0 => .error ⟨.unexpectedCharacter c, 0, 1, before.previous⟩
      | length => .ok ⟨.dollarVar, 1 + length⟩
    else if c.isDigit then .ok (ofDigit text)
    else if c = ':' then .ok (ofColon before text)
    else if Ascii.isWordStart c then .ok (ofWord before text)
    else match ofPunctuation? text with
      | some lexeme => .ok lexeme
      | none => .error ⟨.unexpectedCharacter c, 0, 1, before.previous⟩

/-- The extent of a replacement, which `text` starts with. Replacements may be nested
`levels` deep; with no level left, the opening brace is at fault. -/
def replacement :
    (levels : Nat) → Option TokenKind → List Char → Except LexicalFault Replacement
  | 0, previous, _ => .error ⟨.nestingTooDeep mostLevels, 0, 1, previous⟩
  | levels + 1, _, text => Replacement.read (recognizeWith (replacement levels)) text

/-- The token at the head of a text, where no gap is. -/
def recognize : Before → List Char → Except LexicalFault Lexeme :=
  recognizeWith (replacement mostLevels)

end Lexeme

end PipelineLang
