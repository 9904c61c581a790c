import PipelineLang.Source.Span

/-!
# Names and selectors

## Main definitions

- `Identifier` — a name and its place
- `Entity` — the name of an operator or a function, a path of identifiers
- `MetaSelector`, `FieldSelector`, `Selector` — what can be assigned to
- `Entity.text`, `Selector.text` — names as they are written
-/

namespace PipelineLang

/-- A name and its place. -/
structure Identifier where
  name : String
  span : Span
deriving Repr, BEq, DecidableEq

/-- The name of an operator or a function: identifiers with `::` between them. -/
structure Entity where
  segments : List Identifier
  span : Span
deriving Repr, BEq, DecidableEq

/-- The name as it is written. -/
def Entity.text (entity : Entity) : String :=
  String.intercalate "::" (entity.segments.map (·.name))

/-- A metadata field, `@name`. -/
structure MetaSelector where
  name : Identifier
  span : Span
deriving Repr, BEq, DecidableEq

/-- The selector as it is written. -/
def MetaSelector.text (selector : MetaSelector) : String := "@" ++ selector.name.name

/-- A step of a field path; `optional` says that a question mark follows the name. -/
structure FieldSegment where
  name : Identifier
  optional : Bool
deriving Repr, BEq, DecidableEq

/-- The step as it is written. -/
def FieldSegment.text (segment : FieldSegment) : String :=
  segment.name.name ++ if segment.optional then "?" else ""

/-- A field path, or `this` with any field path. -/
structure FieldSelector where
  /-- Whether the path starts with `this`. -/
  rooted : Bool
  segments : List FieldSegment
  span : Span
deriving Repr, BEq, DecidableEq

/-- The path as it is written. -/
def FieldSelector.text (selector : FieldSelector) : String :=
  String.intercalate "."
    ((if selector.rooted then ["this"] else []) ++ selector.segments.map (·.text))

/-- What can be assigned to. -/
inductive Selector where
  | metadata (selector : MetaSelector)
  | field (selector : FieldSelector)
deriving Repr, BEq, DecidableEq

namespace Selector

/-- The place of a selector. -/
def span : Selector → Span
  | .metadata selector => selector.span
  | .field selector => selector.span

/-- The selector as it is written. -/
def text : Selector → String
  | .metadata selector => selector.text
  | .field selector => selector.text

end Selector

/-- Where the question mark of an optional member stands. -/
inductive OptionalMark where
  /-- Behind the name: `a.b?`. -/
  | behind
  /-- Before the name: `a.?b`. -/
  | ahead
deriving Repr, BEq, DecidableEq

end PipelineLang
