import PipelineLang.Text.Walk

/-!
# Frontmatter

Frontmatter is a block of lines at the head of a source between two delimiter
lines. A delimiter line is `---` with spaces and tabs behind it.

## Main definitions

- `Frontmatter.delimiter?` — the characters of a delimiter line
- `Frontmatter.bodyLength` — the characters before the next delimiter line
-/

namespace PipelineLang.Frontmatter

/-- The number of characters of the delimiter line at the head of a text, with its
line end; none if there is no such line. The end of the text may stand for its line
end if `endsLine` holds. -/
def delimiter? (endsLine : Bool) : List Char → Option Nat
  | '-' :: '-' :: '-' :: rest =>
    let blanks := (rest.takeWhile fun c => c == ' ' || c == '\t').length
    match rest.drop blanks with
    | '\n' :: _ => some (3 + blanks + 1)
    | '\r' :: '\n' :: _ => some (3 + blanks + 2)
    | [] => if endsLine then some (3 + blanks) else none
    | _ => none
  | _ => none

/-- The number of characters before the first delimiter line of a text, or of the
whole text if it has none. -/
def bodyLength (text : List Char) : Nat :=
  walk stop (fun position _ => position) 0 0 true text
where
  /-- What is decided at a character; `lineStart` says that a line starts with it. -/
  stop (position : Nat) (lineStart : Bool) (ahead : List Char) : Stride Bool Nat :=
    if lineStart && (delimiter? true ahead).isSome then .done position
    else .go 0 (ahead.head? == some '\n')

end PipelineLang.Frontmatter
