import PipelineLang.Json.Basic
import PipelineLang.Syntax.Program

/-!
# Syntax trees as structured values

## Main definitions

- `Expr.tree`, `Statement.tree`, `Program.tree` — the structured value of a tree

## Design notes

A node with parts is an object of its parts. A node that is one of several kinds is
an object of one field, which is named for the kind, or the name alone if there is
nothing to tell about it.
-/

namespace PipelineLang

namespace Node

/-- A node of a kind. -/
def kind (name : String) (content : Json) : Json := .object [(name, content)]

/-- A node of a kind with parts. -/
def parts (name : String) (fields : List (String × Json)) : Json := kind name (.object fields)

end Node

open Node

/-- A place. -/
def Span.tree (span : Span) : Json :=
  .object [("start", .number span.start), ("end", .number span.stop),
    ("line", .number span.line), ("column", .number span.column)]

/-- A node with a place behind its parts. -/
def Span.node (span : Span) (fields : List (String × Json)) : Json :=
  .object (fields ++ [("span", span.tree)])

/-- An expression: what it is, and its place. -/
def Span.expression (span : Span) (content : Json) : Json := span.node [("kind", content)]

/-- An identifier. -/
def Identifier.tree (identifier : Identifier) : Json :=
  identifier.span.node [("name", .string identifier.name)]

/-- The name of an operator or a function. -/
def Entity.tree (entity : Entity) : Json :=
  entity.span.node [("segments", .array (entity.segments.map (·.tree)))]

/-- A metadata field. -/
def MetaSelector.tree (selector : MetaSelector) : Json :=
  selector.span.node [("name", selector.name.tree)]

/-- A step of a field path. -/
def FieldSegment.tree (segment : FieldSegment) : Json :=
  .object [("name", segment.name.tree), ("optional", .bool segment.optional)]

/-- What can be assigned to. -/
def Selector.tree : Selector → Json
  | .metadata selector => kind "Meta" selector.tree
  | .field selector =>
    kind "Field" (selector.span.node [("this", .bool selector.rooted),
      ("segments", .array (selector.segments.map (·.tree)))])

/-- A target and the value assigned to it. -/
def Selector.treeWith (target : Selector) (value : Json) (span : Span) : Json :=
  span.node [("left", target.tree), ("right", value)]

/-- Where the question mark of an optional member stands. -/
def OptionalMark.tree : Option OptionalMark → Json
  | some .behind => .string "Suffix"
  | some .ahead => .string "Prefix"
  | none => .null

/-- What a string stands for. -/
def StringValue.tree : StringValue → Json
  | .text value => kind "Text" (.string value)
  | .bytes value => kind "Bytes" (.array (value.map fun byte => .number byte.toNat))

/-- A string. -/
def StringLiteral.tree (literal : StringLiteral) : Json :=
  .object [("text", .string literal.text), ("value", literal.value.tree),
    ("raw", .bool literal.raw)]

/-- The address of a literal, or null if it has none. -/
def Address.tree (address : Option Address) : Json := .ofText? (address.map (·.toText))

/-- A literal. -/
def Literal.tree : Literal → Json
  | .null => .string "Null"
  | .bool value => kind "Bool" (.bool value)
  | .number value =>
    parts "Number" [("text", .string value.text), ("unit", .ofText? value.unit)]
  | .string value => kind "String" value.tree
  | .ip value => parts "Ip" [("text", .string value.text), ("addr", Address.tree value.address)]
  | .subnet value =>
    parts "Subnet" [("text", .string value.text), ("addr", Address.tree value.address),
      ("prefix", .number value.bits)]
  | .time text => parts "Time" [("text", .string text)]
  | .duration value =>
    parts "Duration" [("text", .string value.text),
      ("magnitude", match value.magnitude with
        | some magnitude => .number magnitude
        | none => .null),
      ("unit", .string value.unit.name)]

/-- The key of a field of a record. -/
def RecordKey.tree : RecordKey → Json
  | .identifier name => kind "Identifier" name.tree
  | .string value => kind "String" value.tree

mutual

/-- An expression. -/
def Expr.tree : Expr → Json
  | .literal value span => span.expression (kind "Literal" value.tree)
  | .format segments span =>
    span.expression (parts "Format" [("segments", .array (Segment.trees segments))])
  | .identifier name span => span.expression (kind "Identifier" (.string name))
  | .variable name span => span.expression (kind "DollarVar" (.string name))
  | .metadata selector span => span.expression (kind "Meta" selector.tree)
  | .this span => span.expression (.string "This")
  | .placeholder span => span.expression (.string "Placeholder")
  | .list items span => span.expression (kind "List" (.array (ListItem.trees items)))
  | .record items span => span.expression (kind "Record" (.array (RecordItem.trees items)))
  | .paren inner span => span.expression (kind "Paren" inner.tree)
  | .binary op left right span =>
    span.expression (parts "Binary" [("op", .string op.name), ("left", left.tree),
      ("right", right.tree)])
  | .unary op operand span =>
    span.expression (parts "Unary" [("op", .string op.name), ("operand", operand.tree)])
  | .member receiver name mark span =>
    span.expression (parts "Member" [("receiver", receiver.tree), ("name", name.tree),
      ("optional", OptionalMark.tree mark)])
  | .index receiver index optional span =>
    span.expression (parts "Index" [("receiver", receiver.tree), ("index", index.tree),
      ("optional", .bool optional)])
  | .call function arguments span =>
    span.expression (parts "Call" [("receiver", .null), ("function", function.tree),
      ("arguments", .array (Argument.trees arguments))])
  | .methodCall receiver function arguments span =>
    span.expression (parts "Call" [("receiver", receiver.tree), ("function", function.tree),
      ("arguments", .array (Argument.trees arguments))])
  | .lambda parameter body span =>
    span.expression (parts "Lambda" [("param", parameter.tree), ("body", body.tree)])

/-- A piece of a format string. -/
def Segment.tree : Segment → Json
  | .text raw value span =>
    kind "Text" (span.node [("raw", .string raw), ("value", .string value)])
  | .replacement value span => kind "Replacement" (span.node [("expr", value.tree)])

/-- An item of a list. -/
def ListItem.tree : ListItem → Json
  | .item value => kind "Expr" value.tree
  | .spread value span => kind "Spread" (span.node [("expr", value.tree)])

/-- An item of a record. -/
def RecordItem.tree : RecordItem → Json
  | .field key value span => kind "Field" (span.node [("key", key.tree), ("value", value.tree)])
  | .spread value span => kind "Spread" (span.node [("expr", value.tree)])

/-- An argument. -/
def Argument.tree : Argument → Json
  | .named target value span => kind "Named" (target.treeWith value.tree span)
  | .positional value => kind "Positional" value.tree

/-- The pieces of a format string. -/
def Segment.trees : List Segment → List Json
  | [] => []
  | segment :: rest => segment.tree :: Segment.trees rest

/-- The items of a list. -/
def ListItem.trees : List ListItem → List Json
  | [] => []
  | item :: rest => item.tree :: ListItem.trees rest

/-- The items of a record. -/
def RecordItem.trees : List RecordItem → List Json
  | [] => []
  | item :: rest => item.tree :: RecordItem.trees rest

/-- Arguments. -/
def Argument.trees : List Argument → List Json
  | [] => []
  | argument :: rest => argument.tree :: Argument.trees rest

end

mutual

/-- A statement. -/
def Statement.tree : Statement → Json
  | .letBinding name value span =>
    kind "Let" (span.node [("name", name.tree), ("value", value.tree)])
  | .conditional inner => kind "If" inner.tree
  | .selection subject arms span =>
    kind "Match" (span.node [("subject", subject.tree), ("arms", .array (Arm.trees arms))])
  | .assignment target value span => kind "Assignment" (target.treeWith value.tree span)
  | .invocation operator arguments parenthesized block trailing span =>
    kind "Invocation" (span.node [("operator", operator.tree),
      ("arguments", .array (Argument.trees arguments)), ("parenthesized", .bool parenthesized),
      ("block", Pipeline.tree? block), ("trailing_arguments", .array (Argument.trees trailing))])

/-- A conditional. -/
def Conditional.tree : Conditional → Json
  | ⟨condition, consequence, alternative, span⟩ =>
    span.node [("condition", condition.tree), ("consequence", consequence.tree),
      ("alternative", alternative.tree)]

/-- An alternative, or null if it is absent. -/
def Alternative.tree : Alternative → Json
  | .absent => .null
  | .conditional inner => kind "If" inner.tree
  | .block inner => kind "Block" inner.tree

/-- A block. -/
def Block.tree : Block → Json
  | ⟨body, span⟩ => span.node [("body", Pipeline.tree? body)]

/-- An arm. -/
def Arm.tree : Arm → Json
  | ⟨patterns, body, span⟩ =>
    span.node [("patterns", .array (patterns.map Expr.tree)), ("body", body.tree)]

/-- A pipeline. -/
def Pipeline.tree : Pipeline → Json
  | ⟨statements, span⟩ => span.node [("statements", .array (Statement.trees statements))]

/-- A pipeline, or null if it is absent. -/
def Pipeline.tree? : Option Pipeline → Json
  | none => .null
  | some pipeline => pipeline.tree

/-- Arms. -/
def Arm.trees : List Arm → List Json
  | [] => []
  | arm :: rest => arm.tree :: Arm.trees rest

/-- Statements. -/
def Statement.trees : List Statement → List Json
  | [] => []
  | statement :: rest => statement.tree :: Statement.trees rest

end

/-- Frontmatter. -/
def FrontmatterBlock.tree (block : FrontmatterBlock) : Json :=
  block.span.node [("body", .string block.body), ("closed", .bool block.closed)]

/-- A program. -/
def Program.tree (program : Program) : Json :=
  program.span.node
    [("frontmatter", match program.frontmatter with
      | some block => block.tree
      | none => .null),
     ("pipeline", Pipeline.tree? program.pipeline)]

end PipelineLang
