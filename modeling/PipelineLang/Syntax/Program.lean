import PipelineLang.Syntax.Statement

/-!
# Programs

## Main definitions

- `FrontmatterBlock` — the text between delimiter lines at the head of a source
- `Program` — frontmatter and a pipeline, either of which may be absent
-/

namespace PipelineLang

/-- Text between delimiter lines; `closed` says that there is a second one. -/
structure FrontmatterBlock where
  body : String
  closed : Bool
  span : Span
deriving Repr, BEq, DecidableEq

/-- A program. -/
structure Program where
  frontmatter : Option FrontmatterBlock
  pipeline : Option Pipeline
  span : Span

namespace Program

/-- The statements of a program that are not part of other statements. -/
def statements (program : Program) : List Statement :=
  match program.pipeline with
  | some pipeline => pipeline.statements
  | none => []

end Program

end PipelineLang
