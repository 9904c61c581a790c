import PipelineLang.Address.Matching
import PipelineLang.Literal.Duration
import PipelineLang.Literal.Number
import PipelineLang.Literal.Time
import PipelineLang.Token.Fault

/-!
# Lexemes

A lexeme is a token without its place: a kind and a number of characters at the
head of a text.

## Main definitions

- `Lexeme` — a kind and a number of characters
- `Before` — what stands before the text
- `Lexeme.ofDigit` — the literal that starts with a digit
- `Lexeme.ofColon` — a colon, a `::` of a path, or an address that starts with `::`
- `Lexeme.ofWord` — a keyword, an identifier, or an address that starts with a letter
- `Lexeme.ofPunctuation?` — an operator or a bracket

## Design notes

`abc::def` is both an address and a path. What stands before it and behind it
decides, since a path names an operator: it is called, or it starts a statement.
-/

namespace PipelineLang

/-- A kind of token and the number of characters it takes. -/
structure Lexeme where
  kind : TokenKind
  length : Nat
deriving Repr, BEq, DecidableEq

/-- What stands before a text. -/
structure Before where
  /-- The kind of the last token, comments apart. -/
  previous : Option TokenKind
  /-- The character just before the text; none at the start of a source. -/
  last : Option Char
deriving Repr, BEq, DecidableEq

namespace Before

/-- What stands behind the first `n` characters of `text`, if `before` stands
before it and no token ends in between. -/
def pass (before : Before) (n : Nat) (text : List Char) : Before :=
  if n = 0 then before else { before with last := (text.drop (n - 1)).head? }

/-- What stands behind the token that `lexeme` takes from the head of `text`. A
comment is no token that matters to what follows. -/
def passToken (before : Before) (lexeme : Lexeme) (text : List Char) : Before :=
  let behind := before.pass lexeme.length text
  if lexeme.kind == .comment then behind else { behind with previous := some lexeme.kind }

end Before

namespace Lexeme

/-- The longer of two lexemes; the first if they are equally long. -/
def longer (a b : Option Lexeme) : Option Lexeme :=
  match a, b with
  | some x, some y => if x.length < y.length then some y else some x
  | some x, none => some x
  | none, y => y

/-- The longest literal that starts with a digit. Of literals of the same length,
a time goes before a subnet, then come an address, a number and a duration. -/
def literal? (text : List Char) : Option Lexeme :=
  [(TokenKind.time, Time.matcher), (.subnet, Address.subnetMatcher), (.ip, Address.matcher),
    (.number, Number.matcher), (.duration, Duration.matcher)].foldl
    (fun best (kind, matcher) => longer best ((matcher text).map (Lexeme.mk kind))) none

/-- The literal at the head of a text that starts with a digit. -/
def ofDigit (text : List Char) : Lexeme := (literal? text).getD ⟨.number, 1⟩

/-- The length of the word at the head of `text`; zero if no word starts there. -/
def wordAhead (text : List Char) : Nat :=
  match text with
  | c :: _ => if Ascii.isWordStart c then Ascii.wordLength text else 0
  | [] => 0

/-- Whether a `::` at the head of `text` goes on with a path: an identifier stands
right before it, or it stands before it at a distance and the word behind the `::`
is longer than any address. -/
def continuesPath (before : Before) (text : List Char) (address : Nat) : Bool :=
  before.previous == some .identifier &&
    (before.last.any Ascii.isWordChar ||
      (let word := wordAhead (text.drop 2)
       0 < word && address < 2 + word))

/-- The lexeme at the head of a text that starts with a colon. -/
def ofColon (before : Before) (text : List Char) : Lexeme :=
  if (text.drop 1).head? != some ':' then ⟨.colon, 1⟩
  else
    let subnet := (Address.subnetMatcher text).getD 0
    let ip := (Address.groupsMatcher text).getD 2
    if continuesPath before text (max ip subnet) then ⟨.moduleSep, 2⟩
    else if ip < subnet then ⟨.subnet, subnet⟩
    else ⟨.ip, ip⟩

/-- The kinds of token behind which a statement starts. -/
def statementOpeners : List TokenKind := [.newline, .pipe, .lBrace, .frontmatterClose]

/-- Whether a path, with `rest` behind it, would name an operator: it is called, or
it starts a statement and is no pattern. -/
def namesOperator (before : Before) (rest : List Char) : Bool :=
  rest.head? == some '(' ||
    (before.previous.all statementOpeners.contains &&
      (let next := rest.dropWhile fun c => c == ' ' || c == '\t'
       !(['=', '>'].isPrefixOf next || [','].isPrefixOf next)))

/-- The address or subnet at the head of a text that starts with a letter or an
underscore. It must not read as a path: there is a digit before its first colon, or
a colon that stands alone. -/
def address? (before : Before) (text : List Char) : Option Lexeme := do
  let ip ← Address.groupsMatcher text
  let matched := text.take ip
  guard ((matched.takeWhile (· != ':')).any Char.isDigit || Address.hasSingleColon matched)
  let lexeme := match Address.subnetMatcher text with
    | some subnet => if ip < subnet then ⟨.subnet, subnet⟩ else ⟨.ip, ip⟩
    | none => ⟨.ip, ip⟩
  let rest := text.drop lexeme.length
  guard !(rest.head?.any Ascii.isWordChar)
  guard !(lexeme.kind == TokenKind.ip && Address.isPathShaped matched
    && namesOperator before rest)
  return lexeme

/-- The lexeme at the head of a text that starts with a letter or an underscore. -/
def ofWord (before : Before) (text : List Char) : Lexeme :=
  match address? before text with
  | some lexeme => lexeme
  | none =>
    let length := Ascii.wordLength text
    ⟨(TokenKind.keyword? (String.ofList (text.take length))).getD .identifier, length⟩

/-- The operators and brackets. One that another one starts with comes after it. -/
def punctuation : List (List Char × TokenKind) :=
  [(['=', '>'], .fatArrow), (['=', '='], .eqEq), (['='], .assign), (['!', '='], .notEq),
   (['>', '='], .gtEq), (['>'], .gt), (['<', '='], .ltEq), (['<'], .lt), (['|'], .pipe),
   (['+'], .plus), (['-'], .minus), (['*'], .star), (['/'], .slash),
   (['.', '.', '.'], .ellipsis), (['.', '?'], .dotQuestion), (['.'], .dot), (['?'], .question),
   (['('], .lParen), ([')'], .rParen), (['['], .lBracket), ([']'], .rBracket),
   (['\x7b'], .lBrace), (['\x7d'], .rBrace), ([','], .comma), (['@'], .atSign)]

/-- The operator or bracket at the head of a text. -/
def ofPunctuation? (text : List Char) : Option Lexeme :=
  (punctuation.find? fun (spelling, _) => spelling.isPrefixOf text).map
    fun (spelling, kind) => ⟨kind, spelling.length⟩

end Lexeme

end PipelineLang
