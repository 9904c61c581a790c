import PipelineLang.Proofs.Grammar.DerivedStatements
import PipelineLang.Proofs.Grammar.ProgramSoundness

/-!
# Derived programs are read

## Main definitions

- `Program.Finds` — what comes of tokens: statements, and perhaps an error behind them

## Main results

- `Grammar.statementsToEnd_derived` — statements that have a derivation are read up to the end
- `Grammar.statementsToEnd_of_le` — they are read in the same way if more nesting is allowed
- `Program.finds_statementsToEnd` — without frontmatter, the statements are all there is
-/

namespace PipelineLang

open TokenStream Parse Shape

namespace Grammar

variable {limit depth : Nat} {before taken newlines rest : List Token} {stop : Token}

/-- Without frontmatter, the line ends at the head of a source are passed. -/
theorem frontmatter?_plain (hstop : stop.kind = .eof) (hnewlines : Newlines newlines)
    (hrest : firstKind rest ∉ [TokenKind.newline, .frontmatterOpen]) :
    frontmatter?.run (between [] (newlines ++ rest) stop) =
      .ok none (between newlines rest stop) := by
  have hother : firstKind rest ≠ .newline ∧ firstKind rest ≠ .frontmatterOpen := by
    simpa [not_or] using hrest
  have htakes : frontmatter?.Takes stop [] newlines rest none := by
    refine (skipNewlines_takes hstop hnewlines hother.1).bind_pure
      ((isAt_takes hstop .frontmatterOpen).bind_none ?_)
    rw [beq_eq_false_iff_ne.mpr hother.2]
    exact takes_pure _
  exact htakes

theorem statementsToEnd_nil (hstop : stop.kind = .eof) (enter : Enter) :
    statementsToEnd enter (between before [] stop) = ⟨[], none, between before [] stop⟩ := by
  rw [statementsToEnd, kind_peek_between _ hstop, if_pos firstKind_nil]

/-- Statements that are read one behind another are read up to the end. -/
theorem statementsToEnd_series (hstop : stop.kind = .eof) {enter : Enter}
    {statements : List Statement} (hfirst : firstKind taken ≠ .eof)
    (h : Series ((statement enter).TakesSome stop) ((anotherStatement .eof).Takes stop) before taken
      [] statements) :
    statementsToEnd enter (between before taken stop) =
      ⟨statements, none, between (before ++ taken) [] stop⟩ := by
  have hlength := length_le_of_series (fun h => h.2) h
  have hharvest := harvest_takes_all (takes_of_takesSome h) (taken.length + 1) (by omega)
  rw [List.append_nil] at hharvest
  rw [statementsToEnd, kind_peek_between _ hstop, if_neg hfirst, harvestAll, rest_between, hharvest]

/-- Statements that have a derivation are read up to the end, whatever stands before them. -/
theorem statementsToEnd_derived (hdepth : depth ≤ limit) (hstop : stop.kind = .eof)
    {statements : List Statement}
    (h : Series (StatementAt (nestedTo depth)) (Separator .eof) before taken [] statements)
    (before' : List Token) :
    statementsToEnd (enterTo limit limit) (between before' taken stop) =
      ⟨statements, none, between (before' ++ taken) [] stop⟩ := by
  have hseries := derived_statements hstop before' (readsDerived_enterTo limit hdepth) (by decide) h
    (alike_refl []) rfl
  have hfirst : firstKind taken ≠ .eof := by
    have hstart := h.start (fun ahead => firstKind ahead ∈ statementOpeners) firstKind_statement []
    rw [List.append_nil] at hstart
    intro hk
    rw [hk] at hstart
    exact absurd hstart (by decide)
  exact statementsToEnd_series hstop hfirst hseries

/-- Where all statements are read, they are read in the same way if more nesting is allowed. -/
theorem statementsToEnd_of_le {limit' : Nat} (hle : limit ≤ limit') {ahead : List Token}
    (hstop : stop.kind = .eof) (heof : ∀ token ∈ ahead, token.kind ≠ .eof)
    (h : (statementsToEnd (enterTo limit limit) (between before ahead stop)).error = none) :
    statementsToEnd (enterTo limit' limit') (between before ahead stop) =
      statementsToEnd (enterTo limit limit) (between before ahead stop) := by
  obtain ⟨taken, rest, rfl, hstatements⟩ := statementsToEnd_takes limit before hstop heof
  rw [h] at hstatements
  generalize hitems : (statementsToEnd _ _).items = items at hstatements
  cases hstatements with
  | none => rw [List.append_nil, statementsToEnd_nil hstop, statementsToEnd_nil hstop]
  | all hstatements =>
    rw [List.append_nil]
    rw [statementsToEnd_derived (le_refl limit) hstop hstatements,
      statementsToEnd_derived hle hstop hstatements]
  | fragment hpartial _ => exact absurd hpartial (by simp)

end Grammar

/-! ### Programs without frontmatter -/

namespace Program

open Grammar

variable {limit : Nat} {tokens newlines rest : List Token}

/-- What comes of tokens without frontmatter: statements, and perhaps an error behind them. -/
inductive Finds (limit : Nat) (tokens : List Token) : List Statement → Option SyntaxError → Prop
  | program {program} (h : ofTokens limit tokens = .ok program)
    (hnone : program.frontmatter = none) : Finds limit tokens program.statements none
  | rejection {rejection} (h : ofTokens limit tokens = .error rejection)
    (hnone : rejection.fragment.frontmatter = none) :
    Finds limit tokens rejection.fragment.statements (some rejection.error)

/-- The statements of tokens without frontmatter. -/
theorem finds_statementsToEnd {stop : Token} (hstop : stop.kind = .eof)
    (hstream : TokenStream.ofTokens tokens = between [] (newlines ++ rest) stop)
    (hnewlines : Newlines newlines)
    (hrest : firstKind rest ∉ [TokenKind.newline, .frontmatterOpen]) :
    Finds limit tokens
      (statementsToEnd (enterTo limit limit) (between newlines rest stop)).items
      (statementsToEnd (enterTo limit limit) (between newlines rest stop)).error := by
  have hrun := frontmatter?_plain hstop hnewlines hrest
  generalize hfound : statementsToEnd (enterTo limit limit) (between newlines rest stop) = found
  rw [EStateM.run] at hrun
  rw [← statements_ofStatements? none found.items (spanOf tokens)]
  cases herror : found.error with
  | none =>
    have hprogram : ofTokens limit tokens =
        .ok ⟨none, Pipeline.ofStatements? found.items, spanOf tokens⟩ := by
      simp only [ofTokens, spanOf, hstream, hrun, hfound, herror]
    exact .program hprogram rfl
  | some error =>
    have hrejection : ofTokens limit tokens =
        .error ⟨error, none, Pipeline.ofStatements? found.items, spanOf tokens⟩ := by
      simp only [ofTokens, spanOf, hstream, hrun, hfound, herror]
    exact .rejection hrejection rfl

namespace Finds

variable {items : List Statement} {error : Option SyntaxError}

theorem of_program {program : Program} (h : Finds limit tokens items error)
    (hok : ofTokens limit tokens = .ok program) : items = program.statements ∧ error = none := by
  cases h with
  | program h =>
    cases h.symm.trans hok
    exact ⟨rfl, rfl⟩
  | rejection h => cases h.symm.trans hok

theorem of_rejection {rejection : Rejection} (h : Finds limit tokens items error)
    (herror : ofTokens limit tokens = .error rejection) :
    items = rejection.fragment.statements ∧ error = some rejection.error := by
  cases h with
  | program h => cases h.symm.trans herror
  | rejection h =>
    cases h.symm.trans herror
    exact ⟨rfl, rfl⟩

theorem exists_program (h : Finds limit tokens items none) :
    ∃ program, ofTokens limit tokens = .ok program ∧ program.frontmatter = none ∧
      program.statements = items := by
  cases h with
  | program h hnone => exact ⟨_, h, hnone, rfl⟩

theorem exists_rejection {error : SyntaxError} (h : Finds limit tokens items (some error)) :
    ∃ rejection, ofTokens limit tokens = .error rejection ∧ rejection.error = error ∧
      rejection.fragment.frontmatter = none ∧ rejection.fragment.statements = items := by
  cases h with
  | rejection h hnone => exact ⟨_, h, rfl, hnone, rfl⟩

end Finds

end Program

end PipelineLang
