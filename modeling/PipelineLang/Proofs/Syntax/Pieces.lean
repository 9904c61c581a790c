import PipelineLang.Proofs.Source.Cover
import PipelineLang.Proofs.Syntax.Words

/-!
# The words of a program

## Main definitions

- `Piece` — a word, or words that parentheses may stand around
- `Spells` — the words that pieces may be written with
- `Statement.pieces`, `Program.pieces` — a statement and a program, piece by piece

## Design notes

The arguments behind the block of an invocation may stand in parentheses, and a tree does
not say whether they do.
-/

namespace PipelineLang

/-- A piece of a reading. -/
inductive Piece where
  | word (word : Word)
  /-- The arguments behind a block, with or without parentheses around them. -/
  | trailing (words : List Word)

/-- Words, piece by piece. -/
def Piece.ofWords (words : List Word) : List Piece := words.map .word

/-- The words that pieces may be written with. -/
inductive Spells : List Piece → List Word → Prop
  | nil : Spells [] []
  | word {word pieces words} (h : Spells pieces words) :
    Spells (.word word :: pieces) (word :: words)
  | bare {inner pieces words} (h : Spells pieces words) :
    Spells (.trailing inner :: pieces) (inner ++ words)
  | parenthesized {inner pieces words} (h : Spells pieces words) :
    Spells (.trailing inner :: pieces)
      ((.lParen, "(") :: (inner ++ (.rParen, ")") :: words))

theorem Spells.append {pieces others : List Piece} {words rest : List Word}
    (h : Spells pieces words) (hothers : Spells others rest) :
    Spells (pieces ++ others) (words ++ rest) := by
  induction h with
  | nil => exact hothers
  | word _ ih => exact .word ih
  | bare _ ih =>
    rw [List.cons_append, List.append_assoc]
    exact .bare ih
  | parenthesized _ ih =>
    rw [List.cons_append, List.cons_append, List.append_assoc, List.cons_append]
    exact .parenthesized ih

theorem spells_ofWords (words : List Word) : Spells (Piece.ofWords words) words := by
  induction words with
  | nil => exact .nil
  | cons word words ih => exact .word ih

/-- Words, and then what the words behind them are written with. -/
theorem Spells.behind {others : List Piece} {rest : List Word} (words : List Word)
    (h : Spells others rest) : Spells (Piece.ofWords words ++ others) (words ++ rest) :=
  (spells_ofWords words).append h

theorem spells_bare (words : List Word) : Spells [.trailing words] words := by
  simpa using @Spells.bare words _ _ .nil

/-- The words of arguments. -/
def Argument.listWords (style : Style) (arguments : List Argument) : List Word :=
  List.intercalate style.comma (Argument.allWords style arguments)

/-- The words of the arguments of an operator. -/
def Argument.operatorWords (style : Style) (arguments : List Argument) : Bool → List Word
  | true => (.lParen, "(") :: (Argument.listWords style arguments ++ [(.rParen, ")")])
  | false => Argument.listWords style arguments

mutual

/-- The pieces of a statement. -/
def Statement.pieces (style : Style) : Statement → List Piece
  | .letBinding name value _ =>
    Piece.ofWords ((.kwLet, "let") :: (.dollarVar, "$" ++ name.name) :: (.assign, "=") ::
      value.words style)
  | .conditional inner => inner.pieces style
  | .selection subject arms _ =>
    Piece.ofWords ((.kwMatch, "match") :: (subject.words style ++ [(.lBrace, "\x7b")]))
      ++ (if arms.isEmpty then [] else Piece.ofWords style.newline)
      ++ (Arm.allPieces style arms ++ Piece.ofWords [(.rBrace, "\x7d")])
  | .assignment target value _ =>
    Piece.ofWords (target.words ++ (.assign, "=") :: value.words style)
  | .invocation operator arguments parenthesized none _ _ =>
    Piece.ofWords (operator.words ++ Argument.operatorWords style arguments parenthesized)
  | .invocation operator arguments parenthesized (some block) trailing _ =>
    Piece.ofWords (operator.words ++ Argument.operatorWords style arguments parenthesized)
      ++ (block.pieces style ++ [.trailing (Argument.listWords style trailing)])

/-- The pieces of a conditional. -/
def Conditional.pieces (style : Style) : Conditional → List Piece
  | ⟨condition, consequence, alternative, _⟩ =>
    Piece.ofWords ((.kwIf, "if") :: condition.words style)
      ++ (consequence.pieces style ++ alternative.pieces style)

/-- The pieces of an alternative. -/
def Alternative.pieces (style : Style) : Alternative → List Piece
  | .absent => []
  | .conditional inner => Piece.ofWords [(.kwElse, "else")] ++ inner.pieces style
  | .block inner => Piece.ofWords [(.kwElse, "else")] ++ inner.pieces style

/-- The pieces of a block. -/
def Block.pieces (style : Style) : Block → List Piece
  | ⟨none, _⟩ => Piece.ofWords [(.lBrace, "\x7b"), (.rBrace, "\x7d")]
  | ⟨some body, _⟩ => body.pieces style

/-- The pieces of an arm, with the end of its line. -/
def Arm.pieces (style : Style) : Arm → List Piece
  | ⟨patterns, body, _⟩ =>
    Piece.ofWords (List.intercalate style.comma (patterns.map (·.words style))
        ++ [(.fatArrow, "=>")])
      ++ (body.pieces style ++ Piece.ofWords style.newline)

/-- The pieces of a pipeline, with braces around it. -/
def Pipeline.pieces (style : Style) : Pipeline → List Piece
  | ⟨statements, _⟩ =>
    Piece.ofWords ((.lBrace, "\x7b") :: style.newline)
      ++ (Statement.allPieces style statements ++ Piece.ofWords [(.rBrace, "\x7d")])

/-- The pieces of statements, each with the end of its line. -/
def Statement.allPieces (style : Style) : List Statement → List Piece
  | [] => []
  | statement :: rest =>
    statement.pieces style ++ (Piece.ofWords style.newline ++ Statement.allPieces style rest)

/-- The pieces of arms. -/
def Arm.allPieces (style : Style) : List Arm → List Piece
  | [] => []
  | arm :: rest => arm.pieces style ++ Arm.allPieces style rest

end

/-- The reading of what stands in a source: commas and line ends are left out, and the text
of a format string is the text at its place. -/
def Style.source (source : List Char) : Style where
  comma := []
  newline := []
  format _ span := String.ofList (span.textIn source)

/-- The words of frontmatter. The line that opens it ends with the first line end of its
place, and the line that closes it is what is left behind its body. -/
def FrontmatterBlock.words (source : List Char) (block : FrontmatterBlock) : List Word :=
  let text := block.span.textIn source
  let opening := (text.takeWhile (· != '\n')).length + 1
  (.frontmatterOpen, String.ofList (text.take opening)) ::
    ((if block.body = "" then [] else [(.frontmatterBody, block.body)])
      ++ if block.closed then
        [(.frontmatterClose, String.ofList (text.drop (opening + block.body.toList.length)))]
      else [])

/-- The pieces of a program that stands in a source. -/
def Program.pieces (source : List Char) (program : Program) : List Piece :=
  Piece.ofWords ((program.frontmatter.map (·.words source)).getD [])
    ++ Statement.allPieces (.source source) program.statements

end PipelineLang
