import PipelineLang.Proofs.Grammar.Heedless
import PipelineLang.Proofs.Grammar.ProgramCompleteness

/-!
# Statements behind statements

Where statements end with a line, others may come behind them: the first ones are read as if
nothing came, and the others as if they stood alone.

## Main results

- `Grammar.statementsToEnd_joined` — the statements of two programs, one behind the other
-/

namespace PipelineLang

open TokenStream Parse Shape

namespace Grammar

variable {limit turns : Nat} {before taken ahead line others : List Token} {stop : Token}
  {statements : List Statement}

/-- With more turns than tokens, all statements are read that are read where nothing stands
before them. -/
theorem harvest_others (limit : Nat) (before : List Token) (hstop : stop.kind = .eof)
    (hturns : others.length < turns) (hkind : firstKind others ≠ .eof) :
    (harvest (statement (enterTo limit limit)) (anotherStatement .eof) turns
        (between before others stop)).items =
        (statementsToEnd (enterTo limit limit) (between [] others stop)).items ∧
      (harvest (statement (enterTo limit limit)) (anotherStatement .eof) turns
        (between before others stop)).error =
        (statementsToEnd (enterTo limit limit) (between [] others stop)).error := by
  have hsame := statementsToEnd_heedless (enterTo limit limit) before [] others hstop
  rw [statementsToEnd, kind_peek_between _ hstop, if_neg hkind, harvestAll, rest_between] at hsame
  rw [harvest_turns (statement_yields (enterTo_sound limit limit)) anotherStatement_yields
    (fun _ _ _ _ => StatementAt.ne_nil) hstop hturns (Nat.lt_succ_self others.length)]
  exact hsame

/-- Statements that are read up to the end are read before other ones, too. -/
theorem harvest_joined (hstop : stop.kind = .eof)
    (h : Series (StatementAt (nestedTo limit)) (Separator .eof) before taken ahead statements)
    (hline : Newlines line) (hne : line ≠ []) (heof : ∀ token ∈ others, token.kind ≠ .eof)
    (hothers : firstKind others ∉ [TokenKind.newline, .pipe])
    (hturns : (taken ++ (line ++ others)).length < turns) (before' : List Token) :
    (harvest (statement (enterTo limit limit)) (anotherStatement .eof) turns
        (between before' (taken ++ (line ++ others)) stop)).items =
        statements ++ (statementsToEnd (enterTo limit limit) (between [] others stop)).items ∧
      (harvest (statement (enterTo limit limit)) (anotherStatement .eof) turns
        (between before' (taken ++ (line ++ others)) stop)).error =
        (statementsToEnd (enterTo limit limit) (between [] others stop)).error := by
  have hd := readsDerived_enterTo limit (Nat.le_refl limit)
  have hfollow : ∀ {gap : List Token} (ahead : List Token), gap ≠ [] →
      (∀ token ∈ gap, token.kind ∈ [TokenKind.newline, .pipe]) →
      firstKind (gap ++ ahead) ∈ statementClosers :=
    fun ahead hsome htaken => firstKind_gap htaken fun hnil => absurd hnil hsome
  induction h generalizing turns before' with
  | @last before own gap ahead a hitem hgap =>
    obtain ⟨turns, rfl⟩ := Nat.exists_eq_add_one_of_ne_zero (Nat.ne_zero_of_lt hturns)
    have hseparates : ∀ token ∈ gap ++ line, token.kind ∈ [TokenKind.newline, .pipe] := by
      cases hgap with
      | last htaken _ =>
        refine List.forall_mem_append.mpr ⟨htaken, fun token htoken => ?_⟩
        simp [hline token htoken]
    have hclosed : firstKind (gap ++ ahead) ∈ statementClosers :=
      firstKind_separator hgap fun _ => by
        cases hgap with
        | last _ hcloser => rw [hcloser]; decide
    have hsome : gap ++ line ≠ [] := by simp [hne]
    have hclosed' := hfollow others hsome hseparates
    have hread := (derived_statement hstop before' hd hitem (.ends hclosed hclosed') hclosed').1
    simp only [Takes, EStateM.run, List.append_assoc] at hread
    simp only [harvest, List.append_assoc, hread]
    cases others with
    | nil =>
      have hagain := anotherStatement_takes_last hstop (before' ++ own) hseparates (by decide)
        (firstKind_nil : firstKind [] = .eof)
      simp only [Takes, EStateM.run, List.append_assoc] at hagain
      rw [hagain, statementsToEnd_nil hstop]
      exact ⟨rfl, rfl⟩
    | cons token rest =>
      have hkind : firstKind (token :: rest) ≠ .eof := heof token (by simp)
      have hagain := anotherStatement_takes hstop (before' ++ own) hseparates hsome hothers hkind
      simp only [Takes, EStateM.run, List.append_assoc] at hagain
      have hlength : (token :: rest).length < turns := by
        have := List.length_pos_iff.mpr hitem.ne_nil
        simp only [List.length_append] at hturns
        omega
      obtain ⟨hitems, herror⟩ :=
        harvest_others limit (before' ++ (own ++ (gap ++ line))) hstop hlength hkind
      rw [hagain]
      exact ⟨congrArg (a :: ·) hitems, herror⟩
  | @more before own gap tokens ahead a as hitem hgap htokens ih =>
    obtain ⟨turns, rfl⟩ := Nat.exists_eq_add_one_of_ne_zero (Nat.ne_zero_of_lt hturns)
    have hstart : firstKind (tokens ++ (line ++ others)) ∈ statementOpeners :=
      htokens.start (fun ahead => firstKind ahead ∈ statementOpeners) firstKind_statement _
    have hnone := not_closer_of_opener hstart
    have hend : TokenKind.eof ∈ statementClosers := by decide
    cases hgap with
    | more htaken hsome =>
      have hread := (derived_statement hstop before' hd hitem
        (.ends (hfollow _ hsome htaken) (hfollow (tokens ++ (line ++ others)) hsome htaken))
        (hfollow _ hsome htaken)).1
      have hagain := anotherStatement_takes hstop (before' ++ own) htaken hsome
        (fun hmem => hnone (List.mem_append_left [.rBrace, .eof] hmem))
        (fun hk => hnone (hk ▸ hend))
      have hlength : (tokens ++ (line ++ others)).length < turns := by
        have := List.length_pos_iff.mpr hitem.ne_nil
        simp only [List.length_append] at hturns ⊢
        omega
      obtain ⟨hitems, herror⟩ := ih hlength (before' ++ own ++ gap)
      simp only [Takes, EStateM.run] at hread hagain
      simp only [harvest, List.append_assoc] at hread hagain hitems herror ⊢
      rw [hread]
      dsimp only
      rw [hagain]
      exact ⟨congrArg (a :: ·) hitems, herror⟩

/-- The statements of a program with others behind it, on a line of their own. -/
theorem statementsToEnd_joined (hstop : stop.kind = .eof)
    (h : Series (StatementAt (nestedTo limit)) (Separator .eof) before taken [] statements)
    (hline : Newlines line) (hne : line ≠ []) (heof : ∀ token ∈ others, token.kind ≠ .eof)
    (hothers : firstKind others ∉ [TokenKind.newline, .pipe]) (before' : List Token) :
    (statementsToEnd (enterTo limit limit)
        (between before' (taken ++ (line ++ others)) stop)).items =
        statements ++ (statementsToEnd (enterTo limit limit) (between [] others stop)).items ∧
      (statementsToEnd (enterTo limit limit)
          (between before' (taken ++ (line ++ others)) stop)).error =
        (statementsToEnd (enterTo limit limit) (between [] others stop)).error := by
  have hfirst : firstKind (taken ++ (line ++ others)) ≠ .eof := by
    have hstart := h.start (fun ahead => firstKind ahead ∈ statementOpeners) firstKind_statement
      (line ++ others)
    intro hk
    rw [hk] at hstart
    exact absurd hstart (by decide)
  have hjoined := harvest_joined hstop h hline hne heof hothers (Nat.lt_succ_self _) before'
  rw [statementsToEnd, kind_peek_between _ hstop, if_neg hfirst]
  exact hjoined

end Grammar

end PipelineLang
