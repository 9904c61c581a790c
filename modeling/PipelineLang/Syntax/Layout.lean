import PipelineLang.Syntax.Program

/-!
# Layout

Every program has one layout: a statement a line, two spaces for each block around
it, single spaces around binary operators, and no comments.

## Main definitions

- `Expr.layout` — an expression, on one line unless one of its literals is longer
- `Statement.layout`, `Pipeline.layout` — statements, at an indentation
- `Program.layout` — the text of a program

## Design notes

Lists are laid out by functions of their own, so that the recursion follows the
structure of the tree.
-/

namespace PipelineLang

namespace Layout

/-- Parts with a comma and a space between them. -/
def commas (parts : List String) : String := String.intercalate ", " parts

/-- What stands before a line that is within `depth` blocks. -/
def indentation (depth : Nat) : String := String.join (List.replicate depth "  ")

/-- A replacement of a format string. A brace that starts it is kept apart from the
brace around it, since doubled braces are text. -/
def replacement (inner : String) : String :=
  if inner.toList.head? = some '\x7b' then "\x7b " ++ inner ++ " \x7d"
  else "\x7b" ++ inner ++ "\x7d"

/-- A member behind its receiver. -/
def member (name : String) : Option OptionalMark → String
  | some .ahead => ".?" ++ name
  | some .behind => "." ++ name ++ "?"
  | none => "." ++ name

end Layout

mutual

/-- The text of an expression. -/
def Expr.layout : Expr → String
  | .literal value _ => value.text
  | .format segments _ => "f\x22" ++ Segment.layouts segments ++ "\x22"
  | .identifier name _ => name
  | .variable name _ => "$" ++ name
  | .metadata selector _ => selector.text
  | .this _ => "this"
  | .placeholder _ => "_"
  | .list items _ => "[" ++ Layout.commas (ListItem.layouts items) ++ "]"
  | .record items _ => "\x7b" ++ Layout.commas (RecordItem.layouts items) ++ "\x7d"
  | .paren inner _ => "(" ++ inner.layout ++ ")"
  | .binary op left right _ => left.layout ++ " " ++ op.text ++ " " ++ right.layout
  | .unary op operand _ => op.text ++ operand.layout
  | .member receiver name mark _ => receiver.layout ++ Layout.member name.name mark
  | .index receiver index optional _ =>
    receiver.layout ++ "[" ++ index.layout ++ "]" ++ if optional then "?" else ""
  | .call function arguments _ =>
    function.text ++ "(" ++ Layout.commas (Argument.layouts arguments) ++ ")"
  | .methodCall receiver function arguments _ =>
    receiver.layout ++ "." ++ function.text ++ "(" ++ Layout.commas (Argument.layouts arguments)
      ++ ")"
  | .lambda parameter body _ => parameter.name ++ " => " ++ body.layout

/-- The text of a piece of a format string. -/
def Segment.layout : Segment → String
  | .text raw _ _ => raw
  | .replacement value _ => Layout.replacement value.layout

/-- The text of an item of a list. -/
def ListItem.layout : ListItem → String
  | .item value => value.layout
  | .spread value _ => "..." ++ value.layout

/-- The text of an item of a record. -/
def RecordItem.layout : RecordItem → String
  | .field key value _ => key.text ++ ": " ++ value.layout
  | .spread value _ => "..." ++ value.layout

/-- The text of an argument. -/
def Argument.layout : Argument → String
  | .named target value _ => target.text ++ "=" ++ value.layout
  | .positional value => value.layout

/-- The text of the pieces of a format string. -/
def Segment.layouts : List Segment → String
  | [] => ""
  | segment :: rest => segment.layout ++ Segment.layouts rest

/-- The texts of the items of a list. -/
def ListItem.layouts : List ListItem → List String
  | [] => []
  | item :: rest => item.layout :: ListItem.layouts rest

/-- The texts of the items of a record. -/
def RecordItem.layouts : List RecordItem → List String
  | [] => []
  | item :: rest => item.layout :: RecordItem.layouts rest

/-- The texts of arguments. -/
def Argument.layouts : List Argument → List String
  | [] => []
  | argument :: rest => argument.layout :: Argument.layouts rest

end

namespace Layout

/-- The arguments of an operator, right behind its name. -/
def arguments (parenthesized : Bool) (arguments : List Argument) : String :=
  if parenthesized then "(" ++ commas (Argument.layouts arguments) ++ ")"
  else if arguments.isEmpty then ""
  else " " ++ commas (Argument.layouts arguments)

/-- The arguments behind the block of an operator. -/
def trailing (arguments : List Argument) : String :=
  if arguments.isEmpty then "" else ", " ++ commas (Argument.layouts arguments)

end Layout

mutual

/-- The text of a statement that stands within `depth` blocks. -/
def Statement.layout : Statement → (depth : Nat) → String
  | .letBinding name value _, _ => "let $" ++ name.name ++ " = " ++ value.layout
  | .conditional inner, depth => inner.layout depth
  | .selection subject [] _, _ => "match " ++ subject.layout ++ " \x7b\x7d"
  | .selection subject (arm :: arms) _, depth =>
    "match " ++ subject.layout ++ " \x7b\n" ++ arm.layout (depth + 1)
      ++ Arm.layouts arms (depth + 1) ++ Layout.indentation depth ++ "\x7d"
  | .assignment target value _, _ => target.text ++ " = " ++ value.layout
  | .invocation operator arguments parenthesized none _ _, _ =>
    operator.text ++ Layout.arguments parenthesized arguments
  | .invocation operator arguments parenthesized (some block) trailing _, depth =>
    operator.text ++ Layout.arguments parenthesized arguments ++ block.layoutBraced depth
      ++ Layout.trailing trailing

/-- The text of a conditional. -/
def Conditional.layout : Conditional → (depth : Nat) → String
  | ⟨condition, consequence, alternative, _⟩, depth =>
    "if " ++ condition.layout ++ consequence.layout depth ++ alternative.layout depth

/-- The text of an alternative, from behind the block before it. -/
def Alternative.layout : Alternative → (depth : Nat) → String
  | .absent, _ => ""
  | .conditional inner, depth => " else " ++ inner.layout depth
  | .block inner, depth => " else" ++ inner.layout depth

/-- The text of a block, with a space before it. -/
def Block.layout : Block → (depth : Nat) → String
  | ⟨none, _⟩, _ => " \x7b\x7d"
  | ⟨some body, _⟩, depth => body.layoutBraced depth

/-- The lines of an arm. -/
def Arm.layout : Arm → (depth : Nat) → String
  | ⟨patterns, body, _⟩, depth =>
    Layout.indentation depth ++ Layout.commas (patterns.map Expr.layout) ++ " =>"
      ++ body.layoutBraced depth ++ "\n"

/-- A pipeline between braces, with a space before it. -/
def Pipeline.layoutBraced : Pipeline → (depth : Nat) → String
  | ⟨statements, _⟩, depth =>
    " \x7b\n" ++ Statement.layouts statements (depth + 1) ++ Layout.indentation depth ++ "\x7d"

/-- The lines of statements. -/
def Statement.layouts : List Statement → (depth : Nat) → String
  | [], _ => ""
  | statement :: rest, depth =>
    Layout.indentation depth ++ statement.layout depth ++ "\n" ++ Statement.layouts rest depth

/-- The lines of arms. -/
def Arm.layouts : List Arm → (depth : Nat) → String
  | [], _ => ""
  | arm :: rest, depth => arm.layout depth ++ Arm.layouts rest depth

end

/-- The lines of a pipeline. -/
def Pipeline.layout (pipeline : Pipeline) (depth : Nat) : String :=
  Statement.layouts pipeline.statements depth

namespace Layout

/-- A text with a line end behind it, unless it ends with one. -/
def endLine (text : String) : String :=
  if text.toList.getLast? = some '\n' then text else text ++ "\n"

/-- The text of frontmatter, with both of its delimiter lines. -/
def frontmatter (block : FrontmatterBlock) : String :=
  "---\n" ++ (if block.body.isEmpty then "" else endLine block.body) ++ "---\n"

end Layout

/-- The text of a program. It ends with a line end. -/
def Program.layout (program : Program) : String :=
  Layout.endLine
    ((match program.frontmatter with
      | some block => Layout.frontmatter block
      | none => "")
      ++ match program.pipeline with
      | some pipeline => pipeline.layout 0
      | none => "")

end PipelineLang
