import PipelineLang.Text.Escape
import PipelineLang.Text.Walk
import PipelineLang.Token.Lexeme

/-!
# Lexemes between delimiters

## Main definitions

- `Lexeme.ofQuoted` — a string between quotes, with escapes
- `Lexeme.ofRaw` — a raw string between a quote and fences on either side
- `Lexeme.ofLineComment`, `Lexeme.ofBlockComment` — comments

## Design notes

Each of these is recognised by its first characters before it is read here, so
the only question left is where it ends.
-/

namespace PipelineLang.Lexeme

/-- The quoted string at the head of `text`. Its quote stands behind `lead`
characters, and the same quote ends it. -/
def ofQuoted (before : Before) (lead : Nat) (text : List Char) : Except LexicalFault Lexeme :=
  match text.drop lead with
  | [] => .error ⟨.unterminatedString, 0, lead, before.previous⟩
  | quote :: body => walk (stop quote) finish 0 (lead + 1) () body
where
  /-- What is decided at a character between the quotes. -/
  stop (quote : Char) (position : Nat) (_ : Unit) :
      List Char → Stride Unit (Except LexicalFault Lexeme)
    | [] => .done (finish position ())
    | c :: rest =>
      if c = Escape.backslash then
        match Escape.length? false rest with
        | some n => .go n ()
        | none =>
          .done (.error ⟨.invalidEscape (rest.head?.getD c), position, position + 2,
            before.previous⟩)
      else if c = quote then .done (.ok ⟨.string, position + 1⟩)
      else .go 0 ()
  /-- The answer if the text ends before the string does. -/
  finish (position : Nat) (_ : Unit) : Except LexicalFault Lexeme :=
    .error ⟨.unterminatedString, 0, position, before.previous⟩

/-- The character of a fence. -/
def fence : Char := '#'

/-- The number of fences at the head of a text. -/
def fenceCount (text : List Char) : Nat := (text.takeWhile (· == fence)).length

/-- Whether fences, or none, and a double quote are at the head of a text. -/
def opensRaw (text : List Char) : Bool := (text.drop (fenceCount text)).head? == some '\x22'

/-- The raw string at the head of `text`. Its fences and its quote stand behind
`lead` characters. A quote with as many fences behind it ends it. -/
def ofRaw (before : Before) (lead : Nat) (text : List Char) : Except LexicalFault Lexeme :=
  let fences := fenceCount (text.drop lead)
  if LexicalCause.mostFences < fences then
    .error ⟨.tooManyFences fences, 0, lead + fences, before.previous⟩
  else
    walk (stop fences) (finish fences) 0 (lead + fences + 1) ()
      (text.drop (lead + fences + 1))
where
  /-- What is decided at a character of the string. -/
  stop (fences position : Nat) (_ : Unit) :
      List Char → Stride Unit (Except LexicalFault Lexeme)
    | [] => .done (finish fences position ())
    | c :: rest =>
      if c = '\x22' && (List.replicate fences fence).isPrefixOf rest then
        .done (.ok ⟨.string, position + 1 + fences⟩)
      else .go 0 ()
  /-- The answer if the text ends before the string does. -/
  finish (fences position : Nat) (_ : Unit) : Except LexicalFault Lexeme :=
    .error ⟨.unterminatedRawString fences, 0, position, before.previous⟩

/-- The comment at the head of a text that starts with two slashes: it ends before
the end of the line. -/
def ofLineComment (text : List Char) : Lexeme :=
  ⟨.comment, (text.takeWhile fun c => c != '\n' && c != '\r').length⟩

/-- The comment at the head of a text that starts with a slash and a star. -/
def ofBlockComment (before : Before) (text : List Char) : Except LexicalFault Lexeme :=
  walk stop finish 0 2 () (text.drop 2)
where
  /-- What is decided at a character of the comment. -/
  stop (position : Nat) (_ : Unit) (ahead : List Char) :
      Stride Unit (Except LexicalFault Lexeme) :=
    if ['*', '/'].isPrefixOf ahead then .done (.ok ⟨.comment, position + 2⟩) else .go 0 ()
  /-- The answer if the text ends before the comment does. -/
  finish (position : Nat) (_ : Unit) : Except LexicalFault Lexeme :=
    .error ⟨.unterminatedComment, 0, position, before.previous⟩

end PipelineLang.Lexeme
