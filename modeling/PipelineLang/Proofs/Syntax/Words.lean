import PipelineLang.Syntax.Program
import PipelineLang.Token.Basic

/-!
# The words of a tree

A word is a token without its place. The words of a tree are read off from left to
right.

## Main definitions

- `Word`, `Token.word` — the kind and the text of a token
- `Style` — what a reading leaves open
- `Expr.words` — the words of an expression

## Design notes

A tree does not keep the commas between items and the ends of lines, nor the text of a
format string as a whole. A reading either leaves commas and line ends out or writes them
where the layout has them.
-/

namespace PipelineLang

/-- The kind and the text of a token. -/
abbrev Word := TokenKind × String

/-- A token without its place. -/
def Token.word (token : Token) : Word := (token.kind, token.text)

/-- What a reading leaves open. -/
structure Style where
  /-- What stands between two items. -/
  comma : List Word
  /-- What stands at the end of a line. -/
  newline : List Word
  /-- The text of a format string with some pieces and a place. -/
  format : List Segment → Span → String

/-- The word of a name. -/
def Identifier.word (identifier : Identifier) : Word := (.identifier, identifier.name)

/-- The words of the name of an operator or a function. -/
def Entity.words (entity : Entity) : List Word :=
  List.intercalate [(.moduleSep, "::")] (entity.segments.map fun segment => [segment.word])

/-- The words of a step of a field path. -/
def FieldSegment.words (segment : FieldSegment) : List Word :=
  segment.name.word :: if segment.optional then [(.question, "?")] else []

/-- The words of a metadata field. -/
def MetaSelector.words (selector : MetaSelector) : List Word :=
  [(.atSign, "@"), selector.name.word]

/-- The words of a field path. -/
def FieldSelector.words (selector : FieldSelector) : List Word :=
  List.intercalate [(.dot, ".")]
    ((if selector.rooted then [[(TokenKind.kwThis, "this")]] else [])
      ++ selector.segments.map (·.words))

/-- The words of what can be assigned to. -/
def Selector.words : Selector → List Word
  | .metadata selector => selector.words
  | .field selector => selector.words

/-- The kind of a literal. -/
def Literal.tokenKind : Literal → TokenKind
  | .null => .nullLit
  | .bool true => .trueLit
  | .bool false => .falseLit
  | .number _ => .number
  | .string _ => .string
  | .ip _ => .ip
  | .subnet _ => .subnet
  | .time _ => .time
  | .duration _ => .duration

/-- The word of the key of a field of a record. -/
def RecordKey.word : RecordKey → Word
  | .identifier name => name.word
  | .string value => (.string, value.text)

/-- The words of an operator between its operands. -/
def BinaryOp.words : BinaryOp → List Word
  | .orElse => [(.kwElse, "else")] | .onlyIf => [(.kwIf, "if")]
  | .or => [(.kwOr, "or")] | .and => [(.kwAnd, "and")]
  | .eq => [(.eqEq, "==")] | .notEq => [(.notEq, "!=")]
  | .gt => [(.gt, ">")] | .gtEq => [(.gtEq, ">=")]
  | .lt => [(.lt, "<")] | .ltEq => [(.ltEq, "<=")]
  | .isIn => [(.kwIn, "in")] | .isNotIn => [(.kwNot, "not"), (.kwIn, "in")]
  | .add => [(.plus, "+")] | .sub => [(.minus, "-")]
  | .mul => [(.star, "*")] | .div => [(.slash, "/")]

/-- The word of an operator in front of its operand. -/
def UnaryOp.word : UnaryOp → Word
  | .not => (.kwNot, "not") | .move => (.kwMove, "move")
  | .plus => (.plus, "+") | .neg => (.minus, "-")

/-- The words of a member behind its receiver. -/
def Identifier.memberWords (name : Identifier) : Option OptionalMark → List Word
  | some .ahead => [(.dotQuestion, ".?"), name.word]
  | some .behind => [(.dot, "."), name.word, (.question, "?")]
  | none => [(.dot, "."), name.word]

mutual

/-- The words of an expression. -/
def Expr.words (style : Style) : Expr → List Word
  | .literal value _ => [(value.tokenKind, value.text)]
  | .format segments span => [(.formatString, style.format segments span)]
  | .identifier name _ => [(.identifier, name)]
  | .variable name _ => [(.dollarVar, "$" ++ name)]
  | .metadata selector _ => selector.words
  | .this _ => [(.kwThis, "this")]
  | .placeholder _ => [(.identifier, "_")]
  | .list items _ =>
    (.lBracket, "[") :: (List.intercalate style.comma (ListItem.allWords style items)
      ++ [(.rBracket, "]")])
  | .record items _ =>
    (.lBrace, "\x7b") :: (List.intercalate style.comma (RecordItem.allWords style items)
      ++ [(.rBrace, "\x7d")])
  | .paren inner _ => (.lParen, "(") :: (inner.words style ++ [(.rParen, ")")])
  | .binary op left right _ => left.words style ++ op.words ++ right.words style
  | .unary op operand _ => op.word :: operand.words style
  | .member receiver name mark _ => receiver.words style ++ name.memberWords mark
  | .index receiver key optional _ =>
    receiver.words style ++ (.lBracket, "[") :: (key.words style ++ (.rBracket, "]") ::
      if optional then [(.question, "?")] else [])
  | .call function arguments _ =>
    function.words ++ (.lParen, "(") ::
      (List.intercalate style.comma (Argument.allWords style arguments) ++ [(.rParen, ")")])
  | .methodCall receiver function arguments _ =>
    receiver.words style ++ (.dot, ".") :: (function.words ++ (.lParen, "(") ::
      (List.intercalate style.comma (Argument.allWords style arguments) ++ [(.rParen, ")")]))
  | .lambda parameter body _ => parameter.word :: (.fatArrow, "=>") :: body.words style

/-- The words of an item of a list. -/
def ListItem.words (style : Style) : ListItem → List Word
  | .item value => value.words style
  | .spread value _ => (.ellipsis, "...") :: value.words style

/-- The words of an item of a record. -/
def RecordItem.words (style : Style) : RecordItem → List Word
  | .field key value _ => key.word :: (.colon, ":") :: value.words style
  | .spread value _ => (.ellipsis, "...") :: value.words style

/-- The words of an argument. -/
def Argument.words (style : Style) : Argument → List Word
  | .named target value _ => target.words ++ (.assign, "=") :: value.words style
  | .positional value => value.words style

/-- The words of each item of a list. -/
def ListItem.allWords (style : Style) : List ListItem → List (List Word)
  | [] => []
  | item :: rest => item.words style :: ListItem.allWords style rest

/-- The words of each item of a record. -/
def RecordItem.allWords (style : Style) : List RecordItem → List (List Word)
  | [] => []
  | item :: rest => item.words style :: RecordItem.allWords style rest

/-- The words of each argument. -/
def Argument.allWords (style : Style) : List Argument → List (List Word)
  | [] => []
  | argument :: rest => argument.words style :: Argument.allWords style rest

end

theorem ListItem.allWords_eq_map (style : Style) (items : List ListItem) :
    allWords style items = items.map (·.words style) := by
  induction items with
  | nil => rfl
  | cons item rest ih => rw [allWords, ih, List.map_cons]

theorem RecordItem.allWords_eq_map (style : Style) (items : List RecordItem) :
    allWords style items = items.map (·.words style) := by
  induction items with
  | nil => rfl
  | cons item rest ih => rw [allWords, ih, List.map_cons]

theorem Argument.allWords_eq_map (style : Style) (arguments : List Argument) :
    allWords style arguments = arguments.map (·.words style) := by
  induction arguments with
  | nil => rfl
  | cons argument rest ih => rw [allWords, ih, List.map_cons]

end PipelineLang
