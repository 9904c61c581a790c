import PipelineLang.Syntax.Program
import PipelineLang.Token.Basic

/-!
# Trees that are moved

A part of a source that stands further behind has the same trees, with all of their places
moved.

## Main definitions

- `Shift` — how far something is moved
- `Movable` — what has places that can be moved
- `Expr.shifted`, `Statement.shifted` — an expression or a statement with all of its places moved

## Design notes

Columns are kept: a shift leads from the start of a line to the start of a line. Moving by
nothing changes nothing, so that two readings of one text at one place are a case of two
readings at two places.
-/

namespace PipelineLang

/-- How far something is moved: so many bytes and so many lines on. -/
structure Shift where
  bytes : Nat
  lines : Nat

/-- The shift that leaves everything where it is. -/
def Shift.zero : Shift := ⟨0, 0⟩

/-- What has places that can be moved. -/
class Movable (α : Type) where
  /-- The same with all of its places moved. -/
  moved : Shift → α → α
  moved_zero : ∀ a, moved .zero a = a

export Movable (moved)

attribute [simp] Movable.moved_zero

/-- What has no places stays as it is. -/
@[reducible] def Movable.fixed {α : Type} : Movable α := ⟨fun _ a => a, fun _ => rfl⟩

instance : Movable Unit := .fixed
instance : Movable Bool := .fixed
instance : Movable Nat := .fixed
instance : Movable TokenKind := .fixed
instance : Movable BinaryOp := .fixed

section

variable {α β : Type} [Movable α] [Movable β]

instance : Movable (Option α) :=
  ⟨fun shift => Option.map (moved shift), fun a => by cases a <;> simp⟩

instance : Movable (List α) :=
  ⟨fun shift => List.map (moved shift), fun as => by induction as <;> simp_all⟩

instance : Movable (α × β) :=
  ⟨fun shift => Prod.map (moved shift) (moved shift), fun pair => by cases pair; simp⟩

variable {shift : Shift}

@[simp] theorem moved_none : moved shift (none : Option α) = none := rfl

@[simp] theorem moved_some (a : α) : moved shift (some a) = some (moved shift a) := rfl

theorem moved_option (a : Option α) : moved shift a = a.map (moved shift) := rfl

@[simp] theorem moved_nil : moved shift ([] : List α) = [] := rfl

@[simp] theorem moved_cons (a : α) (as : List α) :
    moved shift (a :: as) = moved shift a :: moved shift as := rfl

theorem moved_list (as : List α) : moved shift as = as.map (moved shift) := rfl

@[simp] theorem moved_pair (a : α) (b : β) :
    moved shift (a, b) = (moved shift a, moved shift b) := rfl

@[simp] theorem moved_bool (b : Bool) : moved shift b = b := rfl

@[simp] theorem moved_kind (kind : TokenKind) : moved shift kind = kind := rfl

@[simp] theorem moved_operator (op : BinaryOp) : moved shift op = op := rfl

@[simp] theorem moved_nat (n : Nat) : moved shift n = n := rfl

end

/-! ### Places, tokens and names -/

instance : Movable Span where
  moved shift span :=
    ⟨span.start + shift.bytes, span.stop + shift.bytes, span.line + shift.lines, span.column⟩
  moved_zero _ := rfl

instance : Movable Token where
  moved shift token := { token with span := moved shift token.span }
  moved_zero _ := rfl

instance : Movable Identifier where
  moved shift name := { name with span := moved shift name.span }
  moved_zero _ := rfl

instance : Movable Entity where
  moved shift entity := ⟨moved shift entity.segments, moved shift entity.span⟩
  moved_zero entity := by simp

instance : Movable MetaSelector where
  moved shift selector := ⟨moved shift selector.name, moved shift selector.span⟩
  moved_zero _ := rfl

instance : Movable FieldSegment where
  moved shift segment := { segment with name := moved shift segment.name }
  moved_zero _ := rfl

instance : Movable FieldSelector where
  moved shift selector :=
    ⟨selector.rooted, moved shift selector.segments, moved shift selector.span⟩
  moved_zero selector := by simp

instance : Movable Selector where
  moved shift
    | .metadata selector => .metadata (moved shift selector)
    | .field selector => .field (moved shift selector)
  moved_zero selector := by cases selector <;> simp

instance : Movable RecordKey where
  moved shift
    | .identifier name => .identifier (moved shift name)
    | .string value => .string value
  moved_zero key := by cases key <;> simp

section

variable {shift : Shift}

@[simp] theorem moved_through (first last : Span) :
    moved shift (first.through last) = (moved shift first).through (moved shift last) := rfl

@[simp] theorem Token.kind_moved (token : Token) : (moved shift token).kind = token.kind := rfl

@[simp] theorem Token.text_moved (token : Token) : (moved shift token).text = token.text := rfl

@[simp] theorem Token.span_moved (token : Token) :
    (moved shift token).span = moved shift token.span := rfl

@[simp] theorem Identifier.span_moved (name : Identifier) :
    (moved shift name).span = moved shift name.span := rfl

@[simp] theorem Entity.span_moved (entity : Entity) :
    (moved shift entity).span = moved shift entity.span := rfl

@[simp] theorem Selector.span_moved (selector : Selector) :
    (moved shift selector).span = moved shift selector.span := by
  cases selector <;> rfl

end

/-! ### Expressions -/

mutual

/-- An expression with all of its places moved. -/
def Expr.shifted (shift : Shift) : Expr → Expr
  | .literal value span => .literal value (moved shift span)
  | .format segments span =>
    .format (Segment.allShifted shift segments) (moved shift span)
  | .identifier name span => .identifier name (moved shift span)
  | .variable name span => .variable name (moved shift span)
  | .metadata selector span =>
    .metadata (moved shift selector) (moved shift span)
  | .this span => .this (moved shift span)
  | .placeholder span => .placeholder (moved shift span)
  | .list items span => .list (ListItem.allShifted shift items) (moved shift span)
  | .record items span =>
    .record (RecordItem.allShifted shift items) (moved shift span)
  | .paren inner span => .paren (inner.shifted shift) (moved shift span)
  | .binary op left right span =>
    .binary op (left.shifted shift) (right.shifted shift) (moved shift span)
  | .unary op operand span => .unary op (operand.shifted shift) (moved shift span)
  | .member receiver name mark span =>
    .member (receiver.shifted shift) (moved shift name) mark
      (moved shift span)
  | .index receiver key optional span =>
    .index (receiver.shifted shift) (key.shifted shift) optional (moved shift span)
  | .call function arguments span =>
    .call (moved shift function) (Argument.allShifted shift arguments)
      (moved shift span)
  | .methodCall receiver function arguments span =>
    .methodCall (receiver.shifted shift) (moved shift function)
      (Argument.allShifted shift arguments) (moved shift span)
  | .lambda parameter body span =>
    .lambda (moved shift parameter) (body.shifted shift)
      (moved shift span)

/-- A piece of a format string with all of its places moved. -/
def Segment.shifted (shift : Shift) : Segment → Segment
  | .text raw value span => .text raw value (moved shift span)
  | .replacement value span => .replacement (value.shifted shift) (moved shift span)

/-- An item of a list with all of its places moved. -/
def ListItem.shifted (shift : Shift) : ListItem → ListItem
  | .item value => .item (value.shifted shift)
  | .spread value span => .spread (value.shifted shift) (moved shift span)

/-- An item of a record with all of its places moved. -/
def RecordItem.shifted (shift : Shift) : RecordItem → RecordItem
  | .field key value span =>
    .field (moved shift key) (value.shifted shift) (moved shift span)
  | .spread value span => .spread (value.shifted shift) (moved shift span)

/-- An argument with all of its places moved. -/
def Argument.shifted (shift : Shift) : Argument → Argument
  | .named target value span =>
    .named (moved shift target) (value.shifted shift) (moved shift span)
  | .positional value => .positional (value.shifted shift)

/-- Pieces of a format string with all of their places moved. -/
def Segment.allShifted (shift : Shift) : List Segment → List Segment
  | [] => []
  | segment :: rest => segment.shifted shift :: Segment.allShifted shift rest

/-- Items of a list with all of their places moved. -/
def ListItem.allShifted (shift : Shift) : List ListItem → List ListItem
  | [] => []
  | item :: rest => item.shifted shift :: ListItem.allShifted shift rest

/-- Items of a record with all of their places moved. -/
def RecordItem.allShifted (shift : Shift) : List RecordItem → List RecordItem
  | [] => []
  | item :: rest => item.shifted shift :: RecordItem.allShifted shift rest

/-- Arguments with all of their places moved. -/
def Argument.allShifted (shift : Shift) : List Argument → List Argument
  | [] => []
  | argument :: rest => argument.shifted shift :: Argument.allShifted shift rest

end

mutual

theorem Expr.shifted_zero : (value : Expr) → value.shifted .zero = value
  | .literal _ _ | .identifier _ _ | .variable _ _ | .metadata _ _ | .this _
  | .placeholder _ => by simp [Expr.shifted]
  | .format segments _ => by simp [Expr.shifted, Segment.allShifted_zero segments]
  | .list items _ => by simp [Expr.shifted, ListItem.allShifted_zero items]
  | .record items _ => by simp [Expr.shifted, RecordItem.allShifted_zero items]
  | .paren inner _ => by simp [Expr.shifted, inner.shifted_zero]
  | .binary _ left right _ => by simp [Expr.shifted, left.shifted_zero, right.shifted_zero]
  | .unary _ operand _ => by simp [Expr.shifted, operand.shifted_zero]
  | .member receiver _ _ _ => by simp [Expr.shifted, receiver.shifted_zero]
  | .index receiver key _ _ => by simp [Expr.shifted, receiver.shifted_zero, key.shifted_zero]
  | .call _ arguments _ => by simp [Expr.shifted, Argument.allShifted_zero arguments]
  | .methodCall receiver _ arguments _ => by
    simp [Expr.shifted, receiver.shifted_zero, Argument.allShifted_zero arguments]
  | .lambda _ body _ => by simp [Expr.shifted, body.shifted_zero]

theorem Segment.shifted_zero : (segment : Segment) → segment.shifted .zero = segment
  | .text _ _ _ => by simp [Segment.shifted]
  | .replacement value _ => by simp [Segment.shifted, value.shifted_zero]

theorem ListItem.shifted_zero : (item : ListItem) → item.shifted .zero = item
  | .item value => by simp [ListItem.shifted, value.shifted_zero]
  | .spread value _ => by simp [ListItem.shifted, value.shifted_zero]

theorem RecordItem.shifted_zero : (item : RecordItem) → item.shifted .zero = item
  | .field _ value _ => by simp [RecordItem.shifted, value.shifted_zero]
  | .spread value _ => by simp [RecordItem.shifted, value.shifted_zero]

theorem Argument.shifted_zero : (argument : Argument) → argument.shifted .zero = argument
  | .named _ value _ => by simp [Argument.shifted, value.shifted_zero]
  | .positional value => by simp [Argument.shifted, value.shifted_zero]

theorem Segment.allShifted_zero :
    (segments : List Segment) → Segment.allShifted .zero segments = segments
  | [] => rfl
  | segment :: rest => by
    simp [Segment.allShifted, segment.shifted_zero, Segment.allShifted_zero rest]

theorem ListItem.allShifted_zero : (items : List ListItem) → ListItem.allShifted .zero items = items
  | [] => rfl
  | item :: rest => by simp [ListItem.allShifted, item.shifted_zero, ListItem.allShifted_zero rest]

theorem RecordItem.allShifted_zero :
    (items : List RecordItem) → RecordItem.allShifted .zero items = items
  | [] => rfl
  | item :: rest => by
    simp [RecordItem.allShifted, item.shifted_zero, RecordItem.allShifted_zero rest]

theorem Argument.allShifted_zero :
    (arguments : List Argument) → Argument.allShifted .zero arguments = arguments
  | [] => rfl
  | argument :: rest => by
    simp [Argument.allShifted, argument.shifted_zero, Argument.allShifted_zero rest]

end

instance : Movable Expr := ⟨Expr.shifted, Expr.shifted_zero⟩
instance : Movable Segment := ⟨Segment.shifted, Segment.shifted_zero⟩
instance : Movable ListItem := ⟨ListItem.shifted, ListItem.shifted_zero⟩
instance : Movable RecordItem := ⟨RecordItem.shifted, RecordItem.shifted_zero⟩
instance : Movable Argument := ⟨Argument.shifted, Argument.shifted_zero⟩

@[simp] theorem Segment.allShifted_eq (shift : Shift) (segments : List Segment) :
    Segment.allShifted shift segments = moved shift segments := by
  induction segments with
  | nil => rfl
  | cons segment rest ih => rw [Segment.allShifted, ih]; rfl

@[simp] theorem ListItem.allShifted_eq (shift : Shift) (items : List ListItem) :
    ListItem.allShifted shift items = moved shift items := by
  induction items with
  | nil => rfl
  | cons item rest ih => rw [ListItem.allShifted, ih]; rfl

@[simp] theorem RecordItem.allShifted_eq (shift : Shift) (items : List RecordItem) :
    RecordItem.allShifted shift items = moved shift items := by
  induction items with
  | nil => rfl
  | cons item rest ih => rw [RecordItem.allShifted, ih]; rfl

@[simp] theorem Argument.allShifted_eq (shift : Shift) (arguments : List Argument) :
    Argument.allShifted shift arguments = moved shift arguments := by
  induction arguments with
  | nil => rfl
  | cons argument rest ih => rw [Argument.allShifted, ih]; rfl

@[simp] theorem Expr.span_moved (shift : Shift) (value : Expr) :
    (moved shift value).span = moved shift value.span := by
  cases value <;> rfl

/-! ### Statements -/

mutual

/-- A statement with all of its places moved. -/
def Statement.shifted (shift : Shift) : Statement → Statement
  | .letBinding name value span =>
    .letBinding (moved shift name) (moved shift value) (moved shift span)
  | .conditional inner => .conditional (inner.shifted shift)
  | .selection subject arms span =>
    .selection (moved shift subject) (Arm.allShifted shift arms) (moved shift span)
  | .assignment target value span =>
    .assignment (moved shift target) (moved shift value) (moved shift span)
  | .invocation operator arguments parenthesized none trailing span =>
    .invocation (moved shift operator) (moved shift arguments) parenthesized none
      (moved shift trailing) (moved shift span)
  | .invocation operator arguments parenthesized (some block) trailing span =>
    .invocation (moved shift operator) (moved shift arguments) parenthesized
      (some (block.shifted shift)) (moved shift trailing) (moved shift span)

/-- A conditional with all of its places moved. -/
def Conditional.shifted (shift : Shift) : Conditional → Conditional
  | ⟨condition, consequence, alternative, span⟩ =>
    ⟨moved shift condition, consequence.shifted shift, alternative.shifted shift,
      moved shift span⟩

/-- An alternative with all of its places moved. -/
def Alternative.shifted (shift : Shift) : Alternative → Alternative
  | .absent => .absent
  | .conditional inner => .conditional (inner.shifted shift)
  | .block inner => .block (inner.shifted shift)

/-- A block with all of its places moved. -/
def Block.shifted (shift : Shift) : Block → Block
  | ⟨none, span⟩ => ⟨none, moved shift span⟩
  | ⟨some body, span⟩ => ⟨some (body.shifted shift), moved shift span⟩

/-- An arm with all of its places moved. -/
def Arm.shifted (shift : Shift) : Arm → Arm
  | ⟨patterns, body, span⟩ => ⟨moved shift patterns, body.shifted shift, moved shift span⟩

/-- A pipeline with all of its places moved. -/
def Pipeline.shifted (shift : Shift) : Pipeline → Pipeline
  | ⟨statements, span⟩ => ⟨Statement.allShifted shift statements, moved shift span⟩

/-- Arms with all of their places moved. -/
def Arm.allShifted (shift : Shift) : List Arm → List Arm
  | [] => []
  | arm :: rest => arm.shifted shift :: Arm.allShifted shift rest

/-- Statements with all of their places moved. -/
def Statement.allShifted (shift : Shift) : List Statement → List Statement
  | [] => []
  | statement :: rest => statement.shifted shift :: Statement.allShifted shift rest

end

mutual

theorem Statement.shifted_zero : (statement : Statement) → statement.shifted .zero = statement
  | .letBinding _ _ _ | .assignment _ _ _ | .invocation _ _ _ none _ _ => by
    simp [Statement.shifted]
  | .conditional inner => by simp [Statement.shifted, inner.shifted_zero]
  | .selection _ arms _ => by simp [Statement.shifted, Arm.allShifted_zero arms]
  | .invocation _ _ _ (some block) _ _ => by simp [Statement.shifted, block.shifted_zero]

theorem Conditional.shifted_zero : (inner : Conditional) → inner.shifted .zero = inner
  | ⟨_, consequence, alternative, _⟩ => by
    simp [Conditional.shifted, consequence.shifted_zero, alternative.shifted_zero]

theorem Alternative.shifted_zero : (inner : Alternative) → inner.shifted .zero = inner
  | .absent => rfl
  | .conditional inner => by simp [Alternative.shifted, inner.shifted_zero]
  | .block inner => by simp [Alternative.shifted, inner.shifted_zero]

theorem Block.shifted_zero : (block : Block) → block.shifted .zero = block
  | ⟨none, _⟩ => by simp [Block.shifted]
  | ⟨some body, _⟩ => by simp [Block.shifted, body.shifted_zero]

theorem Arm.shifted_zero : (arm : Arm) → arm.shifted .zero = arm
  | ⟨_, body, _⟩ => by simp [Arm.shifted, body.shifted_zero]

theorem Pipeline.shifted_zero : (pipeline : Pipeline) → pipeline.shifted .zero = pipeline
  | ⟨statements, _⟩ => by simp [Pipeline.shifted, Statement.allShifted_zero statements]

theorem Arm.allShifted_zero : (arms : List Arm) → Arm.allShifted .zero arms = arms
  | [] => rfl
  | arm :: rest => by simp [Arm.allShifted, arm.shifted_zero, Arm.allShifted_zero rest]

theorem Statement.allShifted_zero :
    (statements : List Statement) → Statement.allShifted .zero statements = statements
  | [] => rfl
  | statement :: rest => by
    simp [Statement.allShifted, statement.shifted_zero, Statement.allShifted_zero rest]

end

instance : Movable Statement := ⟨Statement.shifted, Statement.shifted_zero⟩
instance : Movable Conditional := ⟨Conditional.shifted, Conditional.shifted_zero⟩
instance : Movable Block := ⟨Block.shifted, Block.shifted_zero⟩
instance : Movable Arm := ⟨Arm.shifted, Arm.shifted_zero⟩
instance : Movable Pipeline := ⟨Pipeline.shifted, Pipeline.shifted_zero⟩

instance : Movable FrontmatterBlock where
  moved shift block := { block with span := moved shift block.span }
  moved_zero _ := rfl

@[simp] theorem Arm.allShifted_eq (shift : Shift) (arms : List Arm) :
    Arm.allShifted shift arms = moved shift arms := by
  induction arms with
  | nil => rfl
  | cons arm rest ih => rw [Arm.allShifted, ih]; rfl

@[simp] theorem Statement.allShifted_eq (shift : Shift) (statements : List Statement) :
    Statement.allShifted shift statements = moved shift statements := by
  induction statements with
  | nil => rfl
  | cons statement rest ih => rw [Statement.allShifted, ih]; rfl

@[simp] theorem Conditional.span_moved (shift : Shift) (inner : Conditional) :
    (moved shift inner).span = moved shift inner.span := by
  cases inner
  rfl

@[simp] theorem Block.span_moved (shift : Shift) (block : Block) :
    (moved shift block).span = moved shift block.span := by
  obtain ⟨_ | body, span⟩ := block <;> rfl

@[simp] theorem Statement.span_moved (shift : Shift) (statement : Statement) :
    (moved shift statement).span = moved shift statement.span := by
  cases statement with
  | invocation operator arguments parenthesized block trailing span => cases block <;> rfl
  | conditional inner => exact inner.span_moved shift
  | _ => rfl

end PipelineLang
