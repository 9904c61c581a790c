import PipelineLang.Proofs.Grammar.ExpressionCompleteness

/-!
# Statements are read from their words

## Main results

- `Program.ofTokens_assignment` — the words of an assignment are read as a program
-/

namespace PipelineLang

open TokenStream Parse Shape

namespace Grammar

theorem firstKind_selector {target : Selector} (hlegible : target.Legible) {taken : List Token}
    (h : taken.map Token.word = target.words) (ahead : List Token) :
    firstKind (taken ++ ahead) ∈ [TokenKind.identifier, .kwThis, .atSign] := by
  cases target with
  | metadata selector =>
    obtain ⟨sign, rest, rfl, hsign, -⟩ := List.map_eq_cons_iff.mp h
    rw [List.cons_append, firstKind_cons, kind_of_word hsign]
    simp
  | field selector =>
    obtain ⟨rooted, segments, span⟩ := selector
    cases rooted with
    | false =>
      have hne : segments ≠ [] := hlegible.resolve_left (by simp)
      obtain ⟨first, rest, rfl, hfirst⟩ := cons_of_fieldWords hne h
      simp [hfirst]
    | true =>
      have hwords : ∃ words, Selector.words (.field ⟨true, segments, span⟩) =
          (.kwThis, "this") :: words := by
        cases segments with
        | nil => exact ⟨[], rfl⟩
        | cons segment segments => exact ⟨_, rfl⟩
      obtain ⟨words, hwords⟩ := hwords
      rw [hwords] at h
      obtain ⟨this, rest, rfl, hthis, -⟩ := List.map_eq_cons_iff.mp h
      simp [kind_of_word hthis]

section

variable {stop : Token} (hstop : stop.kind = .eof) {limit depth : Nat} (before : List Token)
  {taken : List Token} (ahead : List Token)

include hstop

/-- The words of an assignment are read as a statement. -/
theorem assignmentStatement_takes {target : Selector} {value : Expr} (htarget : target.Legible)
    (hvalue : ReadsBack limit value)
    (h : taken.map Token.word = target.words ++ (.assign, "=") :: value.words .layout)
    (hdepth : value.nesting < depth) (hahead : firstKind ahead ∈ expressionClosers) :
    ∃ target' found span, (statement (enterTo limit depth)).TakesSome stop before taken ahead
        (.assignment target' found span) ∧
      target'.unplaced = target.unplaced ∧ found.unplaced = value.unplaced := by
  obtain ⟨target', found, ⟨hrun, hne⟩, htarget', hfound⟩ :=
    assignment?_takes hstop before ahead htarget hvalue h hdepth hahead
  refine ⟨target', found, target'.span.through found.span,
    ⟨(peekKind_takes hstop).bind_nil ?_, hne⟩, htarget', hfound⟩
  have hassignment : (assignmentStatement? (enterTo limit depth)).Takes stop before taken ahead
      (some (.assignment target' found (target'.span.through found.span))) :=
    hrun.bind_pure (takes_pure _)
  have hstatement : (assignmentOrInvocation (enterTo limit depth)).Takes stop before taken ahead
      (.assignment target' found (target'.span.through found.span)) :=
    hassignment.bind_pure (takes_pure _)
  obtain ⟨front, back, rfl, hfront, -⟩ := List.map_eq_append_iff.mp h
  have hfirst := firstKind_selector htarget hfront (back ++ ahead)
  simp only [List.mem_cons, List.not_mem_nil, or_false, ← List.append_assoc] at hfirst
  obtain hk | hk | hk := hfirst <;> (rw [hk]; exact hstatement)

theorem anotherStatement_takes_nil {closer : TokenKind} (hahead : firstKind ahead = closer)
    (hcloser : closer ∉ [TokenKind.newline, .pipe]) :
    (anotherStatement closer).Takes stop before [] ahead false := by
  refine Takes.bind_none (a := false) ?_ ((isAt_takes hstop closer).bind_none ?_)
  · rw [Takes, List.append_nil]
    refine (skip_eq hstop _).trans ?_
    have hkind : firstKind ahead ∉ [TokenKind.newline, .pipe] := by rwa [hahead]
    cases ahead with
    | nil => simp
    | cons token rest => simp_all
  · rw [beq_iff_eq.mpr hahead]
    exact takes_pure _

end

end Grammar

namespace Program

open Grammar

/-- A program is what is read of its head and of its statements. -/
theorem ofTokens_of_takes {limit : Nat} {tokens head taken : List Token}
    {frontmatter : Option FrontmatterBlock} {statements : List Statement}
    (hsplit : (TokenStream.ofTokens tokens).rest = head ++ taken)
    (hhead : frontmatter?.Takes (TokenStream.ofTokens tokens).stop [] head taken frontmatter)
    (hfirst : firstKind taken ≠ .eof)
    (hstatements : Series
      ((statement (enterTo limit limit)).Takes (TokenStream.ofTokens tokens).stop)
      ((anotherStatement .eof).Takes (TokenStream.ofTokens tokens).stop) head taken [] statements)
    (hlength : statements.length ≤ taken.length) :
    ∃ span, ofTokens limit tokens = .ok ⟨frontmatter, Pipeline.ofStatements? statements, span⟩ := by
  have hstop := kind_stop_ofTokens tokens
  have hkind : (between head taken (TokenStream.ofTokens tokens).stop).peek.kind ≠ .eof := by
    rwa [kind_peek_between _ hstop]
  have hharvest := harvest_takes_all hstatements (taken.length + 1) (by omega)
  rw [List.append_nil] at hharvest
  have hrun : frontmatter? (TokenStream.ofTokens tokens) =
      .ok frontmatter (between head taken (TokenStream.ofTokens tokens).stop) := by
    rw [ofTokens_eq_between, hsplit]
    exact hhead
  refine ⟨(TokenStream.ofTokens tokens).peek.span.through
    (finalToken (significant tokens)).span, ?_⟩
  simp only [ofTokens, hrun, statementsToEnd, if_neg hkind, harvestAll, rest_between, hharvest]

/-- The words of an assignment are read as a program of one statement. -/
theorem ofTokens_assignment {limit : Nat} {tokens : List Token} {target : Selector} {value : Expr}
    (htarget : target.Legible) (hvalue : value.All Expr.Readable) (hdepth : value.nesting < limit)
    (h : (TokenStream.ofTokens tokens).rest.map Token.word =
      target.words ++ (.assign, "=") :: value.words .layout) :
    ∃ target' found span programSpan,
      ofTokens limit tokens = .ok ⟨none, some ⟨[.assignment target' found span], span⟩,
        programSpan⟩ ∧
      target'.unplaced = target.unplaced ∧ found.unplaced = value.unplaced := by
  have hstop := kind_stop_ofTokens tokens
  obtain ⟨target', found, span, ⟨hrun, hne⟩, htarget', hfound⟩ := assignmentStatement_takes hstop
    [] [] htarget (readsBack limit hvalue) h hdepth (by simp [expressionClosers])
  have hfirst : firstKind (TokenStream.ofTokens tokens).rest ∈
      [TokenKind.identifier, .kwThis, .atSign] := by
    obtain ⟨front, back, hsplit, hfront, -⟩ := List.map_eq_append_iff.mp h
    rw [hsplit]
    exact firstKind_selector htarget hfront back
  have hnone : ∀ kind ∉ [TokenKind.identifier, .kwThis, .atSign],
      firstKind (TokenStream.ofTokens tokens).rest ≠ kind := by
    rintro kind hkind rfl
    exact hkind hfirst
  have hhead : frontmatter?.Takes (TokenStream.ofTokens tokens).stop [] []
      (TokenStream.ofTokens tokens).rest none := by
    refine (skipNewlines_takes_nil hstop (hnone _ (by simp))).bind_none ?_
    refine (isAt_takes hstop .frontmatterOpen).bind_none ?_
    rw [beq_eq_false_iff_ne.mpr (hnone _ (by simp))]
    exact takes_pure _
  have hseries : Series ((statement (enterTo limit limit)).Takes (TokenStream.ofTokens tokens).stop)
      ((anotherStatement .eof).Takes (TokenStream.ofTokens tokens).stop) []
      ((TokenStream.ofTokens tokens).rest ++ []) [] [.assignment target' found span] :=
    .last hrun (anotherStatement_takes_nil hstop _ _ rfl (by simp))
  rw [List.append_nil] at hseries
  obtain ⟨programSpan, hprogram⟩ := ofTokens_of_takes rfl hhead (hnone _ (by simp)) hseries
    (List.length_pos_iff.mpr hne)
  exact ⟨target', found, span, programSpan, hprogram, htarget', hfound⟩

end Program

end PipelineLang
