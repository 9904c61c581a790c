import PipelineLang.Syntax.Program

/-!
# The expressions and statements of a tree

## Main definitions

- `Expr.children` — the expressions that an expression is made of
- `Expr.All` — a property of an expression and of all expressions within it
- `Program.expressions` — the outermost expressions of a program
- `Program.allStatements` — the statements of a program, those in blocks and arms included

## Main results

- `Expr.induction` — induction from the children of an expression to the expression
-/

namespace PipelineLang

/-- The expression of a piece of a format string. -/
def Segment.value? : Segment → Option Expr
  | .text _ _ _ => none
  | .replacement value _ => some value

@[simp] theorem Segment.value?_text (raw value : String) (span : Span) :
    (Segment.text raw value span).value? = none := rfl

@[simp] theorem Segment.value?_replacement (value : Expr) (span : Span) :
    (Segment.replacement value span).value? = some value := rfl

/-- The expression of an item of a list. -/
def ListItem.value : ListItem → Expr
  | .item value => value
  | .spread value _ => value

/-- The expression of an item of a record. -/
def RecordItem.value : RecordItem → Expr
  | .field _ value _ => value
  | .spread value _ => value

/-- The expression of an argument. -/
def Argument.value : Argument → Expr
  | .named _ value _ => value
  | .positional value => value

theorem Segment.sizeOf_value?_lt {segment : Segment} {value : Expr}
    (h : segment.value? = some value) : sizeOf value < sizeOf segment := by
  cases segment with
  | text => simp [value?] at h
  | replacement value' span =>
    obtain rfl := Option.some.inj h
    simp only [replacement.sizeOf_spec]
    omega

theorem ListItem.sizeOf_value_lt (item : ListItem) : sizeOf item.value < sizeOf item := by
  cases item <;> simp only [value, item.sizeOf_spec, spread.sizeOf_spec] <;> omega

theorem RecordItem.sizeOf_value_lt (item : RecordItem) : sizeOf item.value < sizeOf item := by
  cases item <;> simp only [value, field.sizeOf_spec, spread.sizeOf_spec] <;> omega

theorem Argument.sizeOf_value_lt (argument : Argument) :
    sizeOf argument.value < sizeOf argument := by
  cases argument <;> simp only [value, named.sizeOf_spec, positional.sizeOf_spec] <;> omega

namespace Expr

/-- The expressions that an expression is made of, from left to right. -/
def children : Expr → List Expr
  | .literal _ _ | .identifier _ _ | .variable _ _ | .metadata _ _ | .this _ | .placeholder _ => []
  | .format segments _ => segments.filterMap (·.value?)
  | .list items _ => items.map (·.value)
  | .record items _ => items.map (·.value)
  | .paren inner _ => [inner]
  | .binary _ left right _ => [left, right]
  | .unary _ operand _ => [operand]
  | .member receiver _ _ _ => [receiver]
  | .index receiver key _ _ => [receiver, key]
  | .call _ arguments _ => arguments.map (·.value)
  | .methodCall receiver _ arguments _ => receiver :: arguments.map (·.value)
  | .lambda _ body _ => [body]

theorem sizeOf_lt_of_mem_children {child parent : Expr} (h : child ∈ parent.children) :
    sizeOf child < sizeOf parent := by
  cases parent with
  | literal | identifier | «variable» | metadata | this | placeholder => simp [children] at h
  | format segments span =>
    obtain ⟨segment, hmem, hvalue⟩ := List.mem_filterMap.mp h
    have := List.sizeOf_lt_of_mem hmem
    have := Segment.sizeOf_value?_lt hvalue
    simp only [format.sizeOf_spec]
    omega
  | list items span =>
    obtain ⟨item, hmem, rfl⟩ := List.mem_map.mp h
    have := List.sizeOf_lt_of_mem hmem
    have := item.sizeOf_value_lt
    simp only [list.sizeOf_spec]
    omega
  | record items span =>
    obtain ⟨item, hmem, rfl⟩ := List.mem_map.mp h
    have := List.sizeOf_lt_of_mem hmem
    have := item.sizeOf_value_lt
    simp only [record.sizeOf_spec]
    omega
  | paren inner span =>
    simp only [children, List.mem_singleton] at h
    simp only [h, paren.sizeOf_spec]
    omega
  | binary op left right span =>
    simp only [children, List.mem_cons, List.not_mem_nil, or_false] at h
    simp only [binary.sizeOf_spec]
    obtain rfl | rfl := h <;> omega
  | unary op operand span =>
    simp only [children, List.mem_singleton] at h
    simp only [h, unary.sizeOf_spec]
    omega
  | member receiver name mark span =>
    simp only [children, List.mem_singleton] at h
    simp only [h, member.sizeOf_spec]
    omega
  | index receiver key optional span =>
    simp only [children, List.mem_cons, List.not_mem_nil, or_false] at h
    simp only [index.sizeOf_spec]
    obtain rfl | rfl := h <;> omega
  | call function arguments span =>
    obtain ⟨argument, hmem, rfl⟩ := List.mem_map.mp h
    have := List.sizeOf_lt_of_mem hmem
    have := argument.sizeOf_value_lt
    simp only [call.sizeOf_spec]
    omega
  | methodCall receiver function arguments span =>
    simp only [methodCall.sizeOf_spec]
    obtain rfl | hmap := List.mem_cons.mp h
    · omega
    · obtain ⟨argument, hmem, rfl⟩ := List.mem_map.mp hmap
      have := List.sizeOf_lt_of_mem hmem
      have := argument.sizeOf_value_lt
      omega
  | lambda parameter body span =>
    simp only [children, List.mem_singleton] at h
    simp only [h, lambda.sizeOf_spec]
    omega

/-- What holds of an expression as soon as it holds of its children holds of all
expressions. -/
@[elab_as_elim]
theorem induction {motive : Expr → Prop}
    (step : ∀ value, (∀ child ∈ value.children, motive child) → motive value) (value : Expr) :
    motive value := by
  induction hsize : sizeOf value using Nat.strongRecOn generalizing value with
  | ind size ih =>
    subst hsize
    exact step value fun child hchild => ih _ (sizeOf_lt_of_mem_children hchild) child rfl

/-- A property of an expression and of all expressions within it. -/
inductive All (property : Expr → Prop) : Expr → Prop
  | intro {value : Expr} (here : property value)
    (within : ∀ child ∈ value.children, All property child) : All property value

theorem All.here {property : Expr → Prop} {value : Expr} (h : value.All property) :
    property value := by
  obtain ⟨hhere, -⟩ := h
  exact hhere

theorem All.child {property : Expr → Prop} {value child : Expr} (h : value.All property)
    (hchild : child ∈ value.children) : child.All property := by
  obtain ⟨-, hwithin⟩ := h
  exact hwithin child hchild

theorem All.mono {property other : Expr → Prop} {value : Expr} (h : value.All property)
    (himp : ∀ value, property value → other value) : value.All other := by
  induction h with
  | intro hhere _ ih => exact .intro (himp _ hhere) ih

theorem All.and {property other : Expr → Prop} {value : Expr} (h : value.All property)
    (hother : value.All other) : value.All fun value => property value ∧ other value := by
  induction h with
  | intro hhere _ ih =>
    exact .intro ⟨hhere, hother.here⟩ fun child hchild => ih child hchild (hother.child hchild)

end Expr

mutual

/-- The outermost expressions of a statement. -/
def Statement.expressions : Statement → List Expr
  | .letBinding _ value _ => [value]
  | .conditional inner => inner.expressions
  | .selection subject arms _ => subject :: Arm.expressions arms
  | .assignment _ value _ => [value]
  | .invocation _ arguments _ none trailing _ =>
    arguments.map (·.value) ++ trailing.map (·.value)
  | .invocation _ arguments _ (some block) trailing _ =>
    arguments.map (·.value) ++ block.expressions ++ trailing.map (·.value)

/-- The outermost expressions of a conditional. -/
def Conditional.expressions : Conditional → List Expr
  | ⟨condition, consequence, alternative, _⟩ =>
    condition :: (consequence.expressions ++ alternative.expressions)

/-- The outermost expressions of an alternative. -/
def Alternative.expressions : Alternative → List Expr
  | .absent => []
  | .conditional inner => inner.expressions
  | .block inner => inner.expressions

/-- The outermost expressions of a block. -/
def Block.expressions : Block → List Expr
  | ⟨none, _⟩ => []
  | ⟨some body, _⟩ => body.expressions

/-- The outermost expressions of a pipeline. -/
def Pipeline.expressions : Pipeline → List Expr
  | ⟨statements, _⟩ => Statement.allExpressions statements

/-- The outermost expressions of arms. -/
def Arm.expressions : List Arm → List Expr
  | [] => []
  | ⟨patterns, body, _⟩ :: rest => patterns ++ body.expressions ++ Arm.expressions rest

/-- The outermost expressions of statements. -/
def Statement.allExpressions : List Statement → List Expr
  | [] => []
  | statement :: rest => statement.expressions ++ Statement.allExpressions rest

end

/-- The outermost expressions of a program. -/
def Program.expressions (program : Program) : List Expr :=
  Statement.allExpressions program.statements

mutual

/-- A statement and the statements in it. -/
def Statement.allStatements : Statement → List Statement
  | .letBinding name value span => [.letBinding name value span]
  | .conditional inner => .conditional inner :: inner.allStatements
  | .selection subject arms span => .selection subject arms span :: Arm.allStatements arms
  | .assignment target value span => [.assignment target value span]
  | .invocation operator arguments parenthesized none trailing span =>
    [.invocation operator arguments parenthesized none trailing span]
  | .invocation operator arguments parenthesized (some block) trailing span =>
    .invocation operator arguments parenthesized (some block) trailing span :: block.allStatements

/-- The statements in a conditional. -/
def Conditional.allStatements : Conditional → List Statement
  | ⟨_, consequence, alternative, _⟩ => consequence.allStatements ++ alternative.allStatements

/-- The statements in an alternative. -/
def Alternative.allStatements : Alternative → List Statement
  | .absent => []
  | .conditional inner => inner.allStatements
  | .block inner => inner.allStatements

/-- The statements in a block. -/
def Block.allStatements : Block → List Statement
  | ⟨none, _⟩ => []
  | ⟨some body, _⟩ => body.allStatements

/-- The statements in a pipeline. -/
def Pipeline.allStatements : Pipeline → List Statement
  | ⟨statements, _⟩ => Statement.allWithin statements

/-- The statements in arms. -/
def Arm.allStatements : List Arm → List Statement
  | [] => []
  | ⟨_, body, _⟩ :: rest => body.allStatements ++ Arm.allStatements rest

/-- Some statements and the statements in them. -/
def Statement.allWithin : List Statement → List Statement
  | [] => []
  | statement :: rest => statement.allStatements ++ Statement.allWithin rest

end

/-- The statements of a program, those in blocks and arms included. -/
def Program.allStatements (program : Program) : List Statement :=
  Statement.allWithin program.statements

end PipelineLang
