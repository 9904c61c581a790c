import PipelineLang.Source.Cursor
import PipelineLang.Token.Frontmatter
import PipelineLang.Token.Recognition

/-!
# Scanners

A scanner stands at a place of a source and reads one token after another.

## Main definitions

- `Scanner` — a place and what has been seen before it
- `Scanner.ofSource`, `Scanner.ofOffset`, `Scanner.within` — where to start
- `Scanner.read` — the next token, or why there is none
- `Scanner.next?` — the same, up to the end or the first error
- `Scanner.tokens` — all tokens
- `tokenize` — all tokens of a source

## Design notes

Frontmatter is only looked for while nothing but line ends and comments has been
read. A scanner may be asked for more behind an error, which is why it goes on from
the last character that was read.
-/

namespace PipelineLang

/-- What a scanner has seen so far. -/
inductive Phase where
  /-- Nothing but line ends and comments: frontmatter may still open. -/
  | start
  /-- Frontmatter that has not been closed. -/
  | frontmatter
  /-- Anything else. -/
  | program
deriving Repr, BEq, DecidableEq

/-- A place in a source and what has been seen before it. -/
structure Scanner where
  cursor : Cursor
  phase : Phase
  /-- The kind of the last token, comments apart. -/
  previous : Option TokenKind
  /-- Whether the last token or an error has been handed out. -/
  finished : Bool
deriving Repr, DecidableEq

namespace Scanner

/-- The scanner at the start of a source. -/
def ofSource (source : List Char) : Scanner := ⟨.ofSource source, .start, none, false⟩

/-- The scanner at the byte `offset` of a source; frontmatter can only open at the
start. -/
def ofOffset (source : List Char) (offset : Nat) : Scanner :=
  if Cursor.charactersBefore offset source = 0 then ofSource source
  else ⟨.ofOffset source offset, .program, none, false⟩

/-- The scanner at the start of `text`, which lies in a larger source where `origin`
starts and holds an expression. -/
def within (text : List Char) (origin : Span) : Scanner :=
  ⟨.within text origin, .program, some .lParen, false⟩

/-- What stands before the place of a scanner. -/
def before (scanner : Scanner) : Before := ⟨scanner.previous, scanner.cursor.last⟩

/-- The token of the next `length` characters. -/
def tokenOf (scanner : Scanner) (kind : TokenKind) (length : Nat) : Token :=
  ⟨kind, String.ofList (scanner.cursor.rest.take length), scanner.cursor.spanBetween 0 length⟩

/-- The scanner behind the next `length` characters. -/
def pass (scanner : Scanner) (length : Nat) : Scanner :=
  { scanner with cursor := scanner.cursor.advanceBy length }

/-- The scanner behind the gap at its place. -/
def passGap (scanner : Scanner) : Scanner := scanner.pass (Gap.length scanner.cursor.rest)

/-- The next token within frontmatter: its end, its closing line, or its body. -/
def readFrontmatter (scanner : Scanner) : Token × Scanner :=
  match scanner.cursor.rest with
  | [] => (scanner.tokenOf .eof 0, { scanner with phase := .program })
  | text =>
    match Frontmatter.delimiter? true text with
    | some length =>
      (scanner.tokenOf .frontmatterClose length,
        { scanner.pass length with phase := .program, previous := some .frontmatterClose })
    | none =>
      let length := Frontmatter.bodyLength text
      (scanner.tokenOf .frontmatterBody length,
        { scanner.pass length with previous := some .frontmatterBody })

/-- The length of the line that opens frontmatter at the place of a scanner. -/
def opening? (scanner : Scanner) : Option Nat :=
  if scanner.phase = .start && scanner.cursor.atLineStart then
    Frontmatter.delimiter? false scanner.cursor.rest
  else none

/-- The phase behind a token. -/
def phaseBehind (scanner : Scanner) (kind : TokenKind) : Phase :=
  if kind = .newline || kind = .comment then scanner.phase else .program

/-- The phase behind a fault: a format string shows that the program has begun even
if it cannot be read. -/
def phaseBehindFault (scanner : Scanner) : Phase :=
  if ['f', '\x22'].isPrefixOf scanner.cursor.rest then .program else scanner.phase

/-- The next token outside frontmatter, where no gap is. -/
def readProgram (scanner : Scanner) : Except LexicalError Token × Scanner :=
  match Lexeme.recognize scanner.before scanner.cursor.rest with
  | .ok ⟨.eof, _⟩ => (.ok (scanner.tokenOf .eof 0), scanner)
  | .ok lexeme =>
    let behind := scanner.before.passToken lexeme scanner.cursor.rest
    (.ok (scanner.tokenOf lexeme.kind lexeme.length),
      { scanner.pass lexeme.length with
        phase := scanner.phaseBehind lexeme.kind, previous := behind.previous })
  | .error fault =>
    (.error ⟨fault.cause, scanner.cursor.spanBetween fault.start fault.stop⟩,
      { scanner.pass fault.stop with
        phase := scanner.phaseBehindFault, previous := fault.previous })

/-- The next token, or why there is none, and the scanner behind it. The end of the
source is a token and can be read any number of times. -/
def read (scanner : Scanner) : Except LexicalError Token × Scanner :=
  if scanner.phase = .frontmatter then
    let (token, behind) := scanner.readFrontmatter
    (.ok token, behind)
  else
    let here := scanner.passGap
    match here.opening? with
    | some length =>
      (.ok (here.tokenOf .frontmatterOpen length),
        { here.pass length with phase := .frontmatter })
    | none => here.readProgram

/-- Whether a token or an error is the last one of a source. -/
def isLast : Except LexicalError Token → Bool
  | .ok token => token.kind == .eof
  | .error _ => true

/-- The next token or error, unless the end or an error has been handed out. -/
def next? (scanner : Scanner) : Option (Except LexicalError Token) × Scanner :=
  if scanner.finished then (none, scanner)
  else
    let (found, behind) := scanner.read
    (some found, { behind with finished := isLast found })

/-- At most `fuel` tokens, and the error that ends them if there is one. -/
def tokensUpTo : (fuel : Nat) → Scanner → List Token × Option LexicalError
  | 0, _ => ([], none)
  | fuel + 1, scanner =>
    match scanner.next? with
    | (none, _) => ([], none)
    | (some (.error error), _) => ([], some error)
    | (some (.ok token), behind) =>
      let (tokens, error) := tokensUpTo fuel behind
      (token :: tokens, error)

/-- The tokens from a scanner on up to the end, and the error that ends them if
there is one. Each token but the last takes a character. -/
def tokens (scanner : Scanner) : List Token × Option LexicalError :=
  tokensUpTo (scanner.cursor.rest.length + 1) scanner

/-- The tokens from a scanner on, if all of them can be read. -/
def tokens? (scanner : Scanner) : Except LexicalError (List Token) :=
  match scanner.tokens with
  | (tokens, none) => .ok tokens
  | (_, some error) => .error error

end Scanner

/-- The tokens of a source. -/
def tokenize (source : String) : Except LexicalError (List Token) :=
  (Scanner.ofSource source.toList).tokens?

end PipelineLang
