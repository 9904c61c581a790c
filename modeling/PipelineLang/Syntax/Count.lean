import PipelineLang.Syntax.Program

/-!
# The number of statements

## Main definitions

- `Pipeline.count` — the statements of a pipeline, with those within them
- `Program.count` — the statements of a program

## Design notes

A conditional is one statement, and so is each statement of any of its blocks; an
alternative that is a conditional itself is not counted on its own.
-/

namespace PipelineLang

mutual

/-- The statement itself and the statements within it. -/
def Statement.count : Statement → Nat
  | .letBinding _ _ _ => 1
  | .assignment _ _ _ => 1
  | .conditional inner => 1 + inner.countWithin
  | .selection _ arms _ => 1 + Arm.count arms
  | .invocation _ _ _ none _ _ => 1
  | .invocation _ _ _ (some block) _ _ => 1 + block.count

/-- The statements within the blocks of a conditional. -/
def Conditional.countWithin : Conditional → Nat
  | ⟨_, consequence, alternative, _⟩ => consequence.count + alternative.count

/-- The statements within an alternative. -/
def Alternative.count : Alternative → Nat
  | .absent => 0
  | .conditional inner => inner.countWithin
  | .block inner => inner.count

/-- The statements within a block. -/
def Block.count : Block → Nat
  | ⟨none, _⟩ => 0
  | ⟨some body, _⟩ => body.count

/-- The statements of a pipeline, with those within them. -/
def Pipeline.count : Pipeline → Nat
  | ⟨statements, _⟩ => Statement.countAll statements

/-- The statements within arms. -/
def Arm.count : List Arm → Nat
  | [] => 0
  | ⟨_, body, _⟩ :: rest => body.count + Arm.count rest

/-- Statements with those within them. -/
def Statement.countAll : List Statement → Nat
  | [] => 0
  | statement :: rest => statement.count + Statement.countAll rest

end

/-- The statements of a program, with those within them. -/
def Program.count (program : Program) : Nat :=
  match program.pipeline with
  | some pipeline => pipeline.count
  | none => 0

end PipelineLang
