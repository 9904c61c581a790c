import PipelineLang.Proofs.Syntax.Subtree

/-!
# Trees without places

## Main definitions

- `Expr.unplaced` — an expression with all of its places set to zero
- `Expr.nesting` — how deep the parts of an expression are nested

## Design notes

Two expressions that are equal but for their places are equal without them.
-/

namespace PipelineLang

/-- A name without its place. -/
def Identifier.unplaced (identifier : Identifier) : Identifier := ⟨identifier.name, .zero⟩

/-- The name of an operator or a function without its places. -/
def Entity.unplaced (entity : Entity) : Entity :=
  ⟨entity.segments.map (·.unplaced), .zero⟩

/-- A step of a field path without its place. -/
def FieldSegment.unplaced (segment : FieldSegment) : FieldSegment :=
  ⟨segment.name.unplaced, segment.optional⟩

/-- A metadata field without its places. -/
def MetaSelector.unplaced (selector : MetaSelector) : MetaSelector :=
  ⟨selector.name.unplaced, .zero⟩

/-- A selector without its places. -/
def Selector.unplaced : Selector → Selector
  | .metadata selector => .metadata selector.unplaced
  | .field selector => .field ⟨selector.rooted, selector.segments.map (·.unplaced), .zero⟩

/-- The key of a field of a record without its place. -/
def RecordKey.unplaced : RecordKey → RecordKey
  | .identifier name => .identifier name.unplaced
  | .string value => .string value

mutual

/-- An expression without its places. -/
def Expr.unplaced : Expr → Expr
  | .literal value _ => .literal value .zero
  | .format segments _ => .format (Segment.allUnplaced segments) .zero
  | .identifier name _ => .identifier name .zero
  | .variable name _ => .variable name .zero
  | .metadata selector _ => .metadata selector.unplaced .zero
  | .this _ => .this .zero
  | .placeholder _ => .placeholder .zero
  | .list items _ => .list (ListItem.allUnplaced items) .zero
  | .record items _ => .record (RecordItem.allUnplaced items) .zero
  | .paren inner _ => .paren inner.unplaced .zero
  | .binary op left right _ => .binary op left.unplaced right.unplaced .zero
  | .unary op operand _ => .unary op operand.unplaced .zero
  | .member receiver name mark _ => .member receiver.unplaced name.unplaced mark .zero
  | .index receiver key optional _ => .index receiver.unplaced key.unplaced optional .zero
  | .call function arguments _ =>
    .call function.unplaced (Argument.allUnplaced arguments) .zero
  | .methodCall receiver function arguments _ =>
    .methodCall receiver.unplaced function.unplaced (Argument.allUnplaced arguments) .zero
  | .lambda parameter body _ => .lambda parameter.unplaced body.unplaced .zero

/-- A piece of a format string without its places. -/
def Segment.unplaced : Segment → Segment
  | .text raw value _ => .text raw value .zero
  | .replacement value _ => .replacement value.unplaced .zero

/-- An item of a list without its places. -/
def ListItem.unplaced : ListItem → ListItem
  | .item value => .item value.unplaced
  | .spread value _ => .spread value.unplaced .zero

/-- An item of a record without its places. -/
def RecordItem.unplaced : RecordItem → RecordItem
  | .field key value _ => .field key.unplaced value.unplaced .zero
  | .spread value _ => .spread value.unplaced .zero

/-- An argument without its places. -/
def Argument.unplaced : Argument → Argument
  | .named target value _ => .named target.unplaced value.unplaced .zero
  | .positional value => .positional value.unplaced

/-- The pieces of a format string without their places. -/
def Segment.allUnplaced : List Segment → List Segment
  | [] => []
  | segment :: rest => segment.unplaced :: Segment.allUnplaced rest

/-- The items of a list without their places. -/
def ListItem.allUnplaced : List ListItem → List ListItem
  | [] => []
  | item :: rest => item.unplaced :: ListItem.allUnplaced rest

/-- The items of a record without their places. -/
def RecordItem.allUnplaced : List RecordItem → List RecordItem
  | [] => []
  | item :: rest => item.unplaced :: RecordItem.allUnplaced rest

/-- Arguments without their places. -/
def Argument.allUnplaced : List Argument → List Argument
  | [] => []
  | argument :: rest => argument.unplaced :: Argument.allUnplaced rest

end

theorem Segment.allUnplaced_eq_map (segments : List Segment) :
    allUnplaced segments = segments.map (·.unplaced) := by
  induction segments with
  | nil => rfl
  | cons segment rest ih => rw [allUnplaced, ih, List.map_cons]

theorem ListItem.allUnplaced_eq_map (items : List ListItem) :
    allUnplaced items = items.map (·.unplaced) := by
  induction items with
  | nil => rfl
  | cons item rest ih => rw [allUnplaced, ih, List.map_cons]

theorem RecordItem.allUnplaced_eq_map (items : List RecordItem) :
    allUnplaced items = items.map (·.unplaced) := by
  induction items with
  | nil => rfl
  | cons item rest ih => rw [allUnplaced, ih, List.map_cons]

theorem Argument.allUnplaced_eq_map (arguments : List Argument) :
    allUnplaced arguments = arguments.map (·.unplaced) := by
  induction arguments with
  | nil => rfl
  | cons argument rest ih => rw [allUnplaced, ih, List.map_cons]

mutual

/-- How deep the parts of an expression are nested. -/
def Expr.nesting : Expr → Nat
  | .literal _ _ | .identifier _ _ | .variable _ _ | .metadata _ _ | .this _ | .placeholder _ => 0
  | .format segments _ => Segment.nesting segments
  | .list items _ => 1 + ListItem.nesting items
  | .record items _ => 1 + RecordItem.nesting items
  | .paren inner _ => 1 + inner.nesting
  | .binary _ left right _ => max left.nesting (1 + right.nesting)
  | .unary _ operand _ => 1 + operand.nesting
  | .member receiver _ _ _ => receiver.nesting
  | .index receiver key _ _ => max receiver.nesting (1 + key.nesting)
  | .call _ arguments _ => 1 + Argument.nesting arguments
  | .methodCall receiver _ arguments _ => max receiver.nesting (1 + Argument.nesting arguments)
  | .lambda _ body _ => 1 + body.nesting

/-- How deep the pieces of a format string are nested in it. -/
def Segment.nesting : List Segment → Nat
  | [] => 0
  | .text _ _ _ :: rest => Segment.nesting rest
  | .replacement value _ :: rest => max (1 + value.nesting) (Segment.nesting rest)

/-- How deep the items of a list are nested in it. -/
def ListItem.nesting : List ListItem → Nat
  | [] => 0
  | .item value :: rest | .spread value _ :: rest =>
    max (1 + value.nesting) (ListItem.nesting rest)

/-- How deep the items of a record are nested in it. -/
def RecordItem.nesting : List RecordItem → Nat
  | [] => 0
  | .field _ value _ :: rest | .spread value _ :: rest =>
    max (1 + value.nesting) (RecordItem.nesting rest)

/-- How deep arguments are nested in what they are arguments of. -/
def Argument.nesting : List Argument → Nat
  | [] => 0
  | .named _ value _ :: rest | .positional value :: rest =>
    max (1 + value.nesting) (Argument.nesting rest)

end

theorem ListItem.nesting_of_mem {items : List ListItem} {item : ListItem} (h : item ∈ items) :
    item.value.nesting < nesting items := by
  induction items with
  | nil => simp at h
  | cons other rest ih =>
    obtain rfl | h := List.mem_cons.mp h
    · cases item <;> rw [value, nesting] <;> omega
    · have := ih h
      cases other <;> rw [nesting] <;> omega

theorem RecordItem.nesting_of_mem {items : List RecordItem} {item : RecordItem}
    (h : item ∈ items) : item.value.nesting < nesting items := by
  induction items with
  | nil => simp at h
  | cons other rest ih =>
    obtain rfl | h := List.mem_cons.mp h
    · cases item <;> rw [value, nesting] <;> omega
    · have := ih h
      cases other <;> rw [nesting] <;> omega

theorem Argument.nesting_of_mem {arguments : List Argument} {argument : Argument}
    (h : argument ∈ arguments) : argument.value.nesting < nesting arguments := by
  induction arguments with
  | nil => simp at h
  | cons other rest ih =>
    obtain rfl | h := List.mem_cons.mp h
    · cases argument <;> rw [value, nesting] <;> omega
    · have := ih h
      cases other <;> rw [nesting] <;> omega

end PipelineLang
