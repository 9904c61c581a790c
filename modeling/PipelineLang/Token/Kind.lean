/-!
# Kinds of tokens

## Main definitions

- `TokenKind` — what sort of token a piece of source text is
- `TokenKind.describe` — the words for a kind in messages
- `TokenKind.keyword?` — the kind of a reserved word
- `TokenKind.isLiteral`, `TokenKind.isTrivia` — classes of kinds
- `TokenKind.name`, `TokenKind.ofName?` — the kind's name in listings, and back
-/

namespace PipelineLang

/-- The sort of a token. -/
inductive TokenKind where
  | kwLet | kwIf | kwElse | kwMatch | kwAnd | kwOr | kwNot | kwIn | kwMove | kwThis
  /-- A word that is not reserved, `_` among them. -/
  | identifier
  /-- A variable, written with a leading dollar sign. -/
  | dollarVar
  /-- The separator of a path, `::`. -/
  | moduleSep
  /-- The sigil of metadata, `@`. -/
  | atSign
  | nullLit | trueLit | falseLit | number
  /-- A plain, byte or raw string. -/
  | string
  /-- A string with replacements in braces. -/
  | formatString
  | ip | subnet | time | duration
  | assign | fatArrow | pipe
  | eqEq | notEq | gt | gtEq | lt | ltEq
  | plus | minus | star | slash
  | dot | dotQuestion | question | ellipsis
  | lParen | rParen | lBracket | rBracket | lBrace | rBrace
  | comma | colon | newline | comment
  /-- The delimiter line that opens the frontmatter. -/
  | frontmatterOpen
  /-- The opaque text between the delimiter lines. -/
  | frontmatterBody
  /-- The delimiter line that closes the frontmatter. -/
  | frontmatterClose
  /-- The end of the input. -/
  | eof
deriving Repr, BEq, ReflBEq, LawfulBEq, DecidableEq, Inhabited

namespace TokenKind

/-- All kinds, in order of declaration. -/
def all : List TokenKind :=
  [.kwLet, .kwIf, .kwElse, .kwMatch, .kwAnd, .kwOr, .kwNot, .kwIn, .kwMove, .kwThis,
   .identifier, .dollarVar, .moduleSep, .atSign,
   .nullLit, .trueLit, .falseLit, .number, .string, .formatString, .ip, .subnet, .time, .duration,
   .assign, .fatArrow, .pipe, .eqEq, .notEq, .gt, .gtEq, .lt, .ltEq,
   .plus, .minus, .star, .slash, .dot, .dotQuestion, .question, .ellipsis,
   .lParen, .rParen, .lBracket, .rBracket, .lBrace, .rBrace, .comma, .colon,
   .newline, .comment, .frontmatterOpen, .frontmatterBody, .frontmatterClose, .eof]

/-- The name of a kind in token listings. -/
def name : TokenKind → String
  | .kwLet => "Let" | .kwIf => "If" | .kwElse => "Else" | .kwMatch => "Match"
  | .kwAnd => "And" | .kwOr => "Or" | .kwNot => "Not" | .kwIn => "In" | .kwMove => "Move"
  | .kwThis => "This" | .identifier => "Identifier" | .dollarVar => "DollarVar"
  | .moduleSep => "ModuleSep" | .atSign => "At"
  | .nullLit => "Null" | .trueLit => "True" | .falseLit => "False" | .number => "Number"
  | .string => "String" | .formatString => "FormatString"
  | .ip => "Ip" | .subnet => "Subnet" | .time => "Time" | .duration => "Duration"
  | .assign => "Assign" | .fatArrow => "FatArrow" | .pipe => "Pipe"
  | .eqEq => "EqEq" | .notEq => "NotEq"
  | .gt => "Gt" | .gtEq => "GtEq" | .lt => "Lt" | .ltEq => "LtEq"
  | .plus => "Plus" | .minus => "Minus" | .star => "Star" | .slash => "Slash"
  | .dot => "Dot" | .dotQuestion => "DotQuestion" | .question => "Question"
  | .ellipsis => "Ellipsis"
  | .lParen => "LParen" | .rParen => "RParen" | .lBracket => "LBracket"
  | .rBracket => "RBracket" | .lBrace => "LBrace" | .rBrace => "RBrace"
  | .comma => "Comma" | .colon => "Colon" | .newline => "Newline" | .comment => "Comment"
  | .frontmatterOpen => "FrontmatterOpen" | .frontmatterBody => "FrontmatterBody"
  | .frontmatterClose => "FrontmatterClose" | .eof => "Eof"

/-- The kind with a given name. -/
def ofName? (word : String) : Option TokenKind :=
  all.find? (·.name == word)

/-- How a message speaks of a token of this kind. -/
def describe : TokenKind → String
  | .kwLet => "'let'" | .kwIf => "'if'" | .kwElse => "'else'" | .kwMatch => "'match'"
  | .kwAnd => "'and'" | .kwOr => "'or'" | .kwNot => "'not'" | .kwIn => "'in'" | .kwMove => "'move'"
  | .kwThis => "'this'" | .identifier => "identifier" | .dollarVar => "dollar variable"
  | .moduleSep => "'::'" | .atSign => "'@'"
  | .nullLit => "'null'" | .trueLit => "'true'" | .falseLit => "'false'" | .number => "number"
  | .string => "string" | .formatString => "format string"
  | .ip => "ip address" | .subnet => "subnet" | .time => "time" | .duration => "duration"
  | .assign => "'='" | .fatArrow => "'=>'" | .pipe => "'|'"
  | .eqEq => "'=='" | .notEq => "'!='"
  | .gt => "'>'" | .gtEq => "'>='" | .lt => "'<'" | .ltEq => "'<='"
  | .plus => "'+'" | .minus => "'-'" | .star => "'*'" | .slash => "'/'"
  | .dot => "'.'" | .dotQuestion => "'.?'" | .question => "'?'" | .ellipsis => "'...'"
  | .lParen => "'('" | .rParen => "')'" | .lBracket => "'['" | .rBracket => "']'"
  | .lBrace => "'\x7b'" | .rBrace => "'\x7d'"
  | .comma => "','" | .colon => "':'" | .newline => "newline" | .comment => "comment"
  | .frontmatterOpen => "frontmatter start" | .frontmatterBody => "frontmatter"
  | .frontmatterClose => "frontmatter end" | .eof => "end of input"

/-- The reserved words and their kinds. -/
def keywords : List (String × TokenKind) :=
  [("let", .kwLet), ("if", .kwIf), ("else", .kwElse), ("match", .kwMatch), ("and", .kwAnd),
   ("or", .kwOr), ("not", .kwNot), ("in", .kwIn), ("move", .kwMove), ("this", .kwThis),
   ("null", .nullLit), ("true", .trueLit), ("false", .falseLit)]

/-- The kind of a reserved word; none for any other word. -/
def keyword? (word : String) : Option TokenKind :=
  keywords.lookup word

/-- Whether the grammar passes over tokens of this kind. -/
def isTrivia (kind : TokenKind) : Bool := kind == .comment

/-- Whether a token of this kind is a literal value. -/
def isLiteral : TokenKind → Bool
  | .nullLit | .trueLit | .falseLit | .number | .string | .formatString
  | .ip | .subnet | .time | .duration => true
  | _ => false

end TokenKind

end PipelineLang
