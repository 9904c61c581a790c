import PipelineLang.Syntax.Program

/-!
# The places of a tree

Every node of a tree that has a place of its own, with the nodes in it from left to right.

## Main definitions

- `Places` — the places of a node and of what is in it
- `NodeSort` — what is said of a node besides its place
- `Expr.places`, `Statement.places`, `Program.places` — the places of a tree
- `Places.All` — a property of all nodes

## Design notes

Nodes of all sorts are looked at alike here, so that what holds of all places is stated
once. An item of a list and an argument without a name have no place but that of their
expression.
-/

namespace PipelineLang

/-- What is said of a node besides its place. -/
inductive NodeSort where
  /-- A name or a literal, with its text. -/
  | word (text : String)
  /-- The name of an operator or a function. -/
  | path
  /-- A metadata selector in an expression. -/
  | metadata
  /-- A sequence of statements. -/
  | pipeline
  /-- An arm of a selection with so many patterns. -/
  | arm (patterns : Nat)
  /-- A piece of a format string. -/
  | piece
  /-- A program. -/
  | program
  /-- Any other node. -/
  | other
deriving Repr, DecidableEq

/-- The place of a node, and the places in it from left to right. -/
inductive Places where
  | node (sort : NodeSort) (span : Span) (parts : List Places)

namespace Places

/-- The sort of a node. -/
def sort : Places → NodeSort
  | .node sort _ _ => sort

/-- The place of a node. -/
def span : Places → Span
  | .node _ span _ => span

/-- The places in a node. -/
def parts : Places → List Places
  | .node _ _ parts => parts

/-- Whether `P` holds of a node and of all nodes in it. -/
inductive All (P : Places → Prop) : Places → Prop
  | intro {sort span parts} (hhere : P (.node sort span parts))
    (hparts : ∀ part ∈ parts, All P part) : All P (.node sort span parts)

end Places

/-! ### Names -/

/-- The place of a name. -/
def Identifier.places (name : Identifier) : Places := .node (.word name.name) name.span []

/-- The places of the name of an operator or a function. -/
def Entity.places (entity : Entity) : Places :=
  .node .path entity.span (entity.segments.map (·.places))

/-- The places of a selector. -/
def Selector.places : Selector → Places
  | .metadata ⟨name, span⟩ => .node .other span [name.places]
  | .field ⟨_, segments, span⟩ => .node .other span (segments.map (·.name.places))

/-- The places of the key of a field of a record. A string has no place of its own. -/
def RecordKey.places : RecordKey → List Places
  | .identifier name => [name.places]
  | .string _ => []

/-! ### Expressions -/

mutual

/-- The places of an expression. -/
def Expr.places : Expr → Places
  | .literal value span => .node (.word value.text) span []
  | .format segments span => .node .other span (Segment.allPlaces segments)
  | .identifier name span => .node (.word name) span []
  | .variable name span => .node (.word ("$" ++ name)) span []
  | .metadata selector span => .node .metadata span [(Selector.metadata selector).places]
  | .this span => .node (.word "this") span []
  | .placeholder span => .node (.word "_") span []
  | .list items span => .node .other span (ListItem.allPlaces items)
  | .record items span => .node .other span (RecordItem.allPlaces items)
  | .paren inner span => .node .other span [inner.places]
  | .binary _ left right span => .node .other span [left.places, right.places]
  | .unary _ operand span => .node .other span [operand.places]
  | .member receiver name _ span => .node .other span [receiver.places, name.places]
  | .index receiver key _ span => .node .other span [receiver.places, key.places]
  | .call function arguments span =>
    .node .other span (function.places :: Argument.allPlaces arguments)
  | .methodCall receiver function arguments span =>
    .node .other span (receiver.places :: function.places :: Argument.allPlaces arguments)
  | .lambda parameter body span => .node .other span [parameter.places, body.places]

/-- The places of a piece of a format string. -/
def Segment.places : Segment → Places
  | .text _ _ span => .node .piece span []
  | .replacement value span => .node .piece span [value.places]

/-- The places of pieces of a format string. -/
def Segment.allPlaces : List Segment → List Places
  | [] => []
  | segment :: rest => segment.places :: Segment.allPlaces rest

/-- The places of an item of a list. -/
def ListItem.places : ListItem → Places
  | .item value => value.places
  | .spread value span => .node .other span [value.places]

/-- The places of items of a list. -/
def ListItem.allPlaces : List ListItem → List Places
  | [] => []
  | item :: rest => item.places :: ListItem.allPlaces rest

/-- The places of an item of a record. -/
def RecordItem.places : RecordItem → Places
  | .field key value span => .node .other span (key.places ++ [value.places])
  | .spread value span => .node .other span [value.places]

/-- The places of items of a record. -/
def RecordItem.allPlaces : List RecordItem → List Places
  | [] => []
  | item :: rest => item.places :: RecordItem.allPlaces rest

/-- The places of an argument. -/
def Argument.places : Argument → Places
  | .named target value span => .node .other span [target.places, value.places]
  | .positional value => value.places

/-- The places of arguments. -/
def Argument.allPlaces : List Argument → List Places
  | [] => []
  | argument :: rest => argument.places :: Argument.allPlaces rest

end

/-! ### Statements -/

mutual

/-- The places of a statement. The name of a variable is written with a dollar sign. -/
def Statement.places : Statement → Places
  | .letBinding name value span =>
    .node .other span [.node (.word ("$" ++ name.name)) name.span [], value.places]
  | .conditional inner => inner.places
  | .selection subject arms span => .node .other span (subject.places :: Arm.allPlaces arms)
  | .assignment target value span => .node .other span [target.places, value.places]
  | .invocation operator arguments _ none trailing span =>
    .node .other span (operator.places ::
      (Argument.allPlaces arguments ++ Argument.allPlaces trailing))
  | .invocation operator arguments _ (some block) trailing span =>
    .node .other span (operator.places ::
      (Argument.allPlaces arguments ++ block.places :: Argument.allPlaces trailing))

/-- The places of a conditional. -/
def Conditional.places : Conditional → Places
  | ⟨condition, consequence, alternative, span⟩ =>
    .node .other span (condition.places :: consequence.places :: alternative.places)

/-- The places of an alternative. -/
def Alternative.places : Alternative → List Places
  | .absent => []
  | .conditional inner => [inner.places]
  | .block inner => [inner.places]

/-- The places of a block. -/
def Block.places : Block → Places
  | ⟨none, span⟩ => .node .other span []
  | ⟨some body, span⟩ => .node .other span [body.places]

/-- The places of an arm. -/
def Arm.places : Arm → Places
  | ⟨patterns, body, span⟩ =>
    .node (.arm patterns.length) span (patterns.map (·.places) ++ [body.places])

/-- The places of arms. -/
def Arm.allPlaces : List Arm → List Places
  | [] => []
  | arm :: rest => arm.places :: Arm.allPlaces rest

/-- The places of a pipeline. -/
def Pipeline.places : Pipeline → Places
  | ⟨statements, span⟩ => .node .pipeline span (Statement.allPlaces statements)

/-- The places of statements. -/
def Statement.allPlaces : List Statement → List Places
  | [] => []
  | statement :: rest => statement.places :: Statement.allPlaces rest

end

/-- The places of frontmatter. -/
def FrontmatterBlock.places (block : FrontmatterBlock) : Places := .node .other block.span []

/-- The places of a program. -/
def Program.places (program : Program) : Places :=
  .node .program program.span
    ((program.frontmatter.map (·.places)).toList ++ (program.pipeline.map (·.places)).toList)

/-! ### Lists of parts -/

theorem Segment.allPlaces_eq_map (segments : List Segment) :
    Segment.allPlaces segments = segments.map (·.places) := by
  induction segments with
  | nil => rfl
  | cons segment rest ih => rw [Segment.allPlaces, ih, List.map_cons]

theorem ListItem.allPlaces_eq_map (items : List ListItem) :
    ListItem.allPlaces items = items.map (·.places) := by
  induction items with
  | nil => rfl
  | cons item rest ih => rw [ListItem.allPlaces, ih, List.map_cons]

theorem RecordItem.allPlaces_eq_map (items : List RecordItem) :
    RecordItem.allPlaces items = items.map (·.places) := by
  induction items with
  | nil => rfl
  | cons item rest ih => rw [RecordItem.allPlaces, ih, List.map_cons]

theorem Argument.allPlaces_eq_map (arguments : List Argument) :
    Argument.allPlaces arguments = arguments.map (·.places) := by
  induction arguments with
  | nil => rfl
  | cons argument rest ih => rw [Argument.allPlaces, ih, List.map_cons]

theorem Arm.allPlaces_eq_map (arms : List Arm) : Arm.allPlaces arms = arms.map (·.places) := by
  induction arms with
  | nil => rfl
  | cons arm rest ih => rw [Arm.allPlaces, ih, List.map_cons]

theorem Statement.allPlaces_eq_map (statements : List Statement) :
    Statement.allPlaces statements = statements.map (·.places) := by
  induction statements with
  | nil => rfl
  | cons statement rest ih => rw [Statement.allPlaces, ih, List.map_cons]

end PipelineLang
