import PipelineLang.Proofs.Grammar.StatementSoundness

/-!
# Programs have derivations

## Main definitions

- `Grammar.HeadOf` — what stands before the statements of a program
- `Program.Derivation` — a program, or the fragment of one, that makes up tokens

## Main results

- `Program.ofTokens_takes` — the tokens of a program are its frontmatter and its statements, and
  those of a fragment are the first ones of the tokens that are no program
-/

namespace PipelineLang

open TokenStream Parse Shape

namespace Grammar

/-- Frontmatter, with the place from its first token to its last one. -/
inductive FrontmatterOf : List Token → FrontmatterBlock → Prop
  | intro {opener : Token} {body closer : Option Token} {last : Token}
    (hopener : opener.kind = .frontmatterOpen)
    (hbody : ∀ token ∈ body, token.kind = .frontmatterBody)
    (hcloser : ∀ token ∈ closer, token.kind = .frontmatterClose)
    (hlast : (opener :: (body.toList ++ closer.toList)).getLast? = some last) :
    FrontmatterOf (opener :: (body.toList ++ closer.toList))
      ⟨(body.map (·.text)).getD "", closer.isSome, opener.span.through last.span⟩

/-- What stands before the statements of a program. -/
inductive HeadOf : List Token → Option FrontmatterBlock → Prop
  | none {newlines} (hnewlines : Newlines newlines) : HeadOf newlines none
  | some {leading tokens trailing block} (hleading : Newlines leading)
    (hblock : FrontmatterOf tokens block) (htrailing : Newlines trailing) :
    HeadOf (leading ++ tokens ++ trailing) (some block)

theorem eat_total_yields (kind : TokenKind) (hkind : kind ≠ .eof) (before ahead : List Token)
    {stop : Token} (hstop : stop.kind = .eof) :
    ∃ (found : Option Token) (rest : List Token), ahead = found.toList ++ rest ∧
      (∀ token ∈ found, token.kind = kind) ∧
      (eat kind).run (between before ahead stop) =
        .ok found (between (before ++ found.toList) rest stop) := by
  obtain ⟨found, behind, hrun⟩ := total_eat kind (between before ahead stop)
  obtain ⟨taken, rest, rfl, rfl, hfound⟩ := eat_yields kind hkind hstop hrun
  obtain ⟨token, rfl, rfl, hk⟩ | ⟨rfl, rfl, -⟩ := hfound
  · exact ⟨some token, rest, rfl, by simpa using hk, hrun⟩
  · exact ⟨none, rest, rfl, by simp, hrun⟩

theorem skipNewlines_total_yields (before ahead : List Token) {stop : Token}
    (hstop : stop.kind = .eof) :
    ∃ newlines rest, ahead = newlines ++ rest ∧ Newlines newlines ∧
      skipNewlines.run (between before ahead stop) =
        .ok () (between (before ++ newlines) rest stop) := by
  have hrun : ∃ behind, skipNewlines.run (between before ahead stop) = .ok () behind :=
    ⟨_, rfl⟩
  obtain ⟨behind, hrun⟩ := hrun
  obtain ⟨newlines, rest, rfl, rfl, hnewlines, -⟩ := skipNewlines_yields hstop hrun
  exact ⟨newlines, rest, rfl, hnewlines, hrun⟩

theorem frontmatter_total_yields (before ahead : List Token) {opener stop : Token}
    (hstop : stop.kind = .eof) (hopener : opener.kind = .frontmatterOpen) :
    ∃ taken rest block, opener :: ahead = taken ++ rest ∧ FrontmatterOf taken block ∧
      frontmatter.run (between before (opener :: ahead) stop) =
        .ok block (between (before ++ taken) rest stop) := by
  obtain ⟨body, rest, rfl, hbody, hrunBody⟩ :=
    eat_total_yields .frontmatterBody (by decide) (before ++ [opener]) ahead hstop
  obtain ⟨closer, rest, rfl, hcloser, hrunCloser⟩ :=
    eat_total_yields .frontmatterClose (by decide) _ rest hstop
  have hne : opener :: (body.toList ++ closer.toList) ≠ [] := by simp
  refine ⟨opener :: (body.toList ++ closer.toList), rest, _, by simp,
    .intro hopener hbody hcloser (List.getLast?_eq_some_getLast hne), ?_⟩
  rw [frontmatter, bind_eq take_eq, bind_eq hrunBody, bind_eq hrunCloser, lastSpan_bind,
    EStateM.run_pure]
  have hlast := lastSpan_between_concat
    (before ++ (opener :: (body.toList ++ closer.toList)).dropLast) rest
    ((opener :: (body.toList ++ closer.toList)).getLast hne) stop
  rw [List.append_assoc, List.dropLast_concat_getLast hne] at hlast
  simp only [List.append_assoc, List.cons_append, List.nil_append] at hlast ⊢
  rw [hlast]

theorem frontmatter?_total_yields (ahead : List Token) {stop : Token} (hstop : stop.kind = .eof) :
    ∃ head rest frontmatter, ahead = head ++ rest ∧ HeadOf head frontmatter ∧
      frontmatter?.run (between [] ahead stop) = .ok frontmatter (between head rest stop) := by
  obtain ⟨leading, rest, rfl, hleading, hrun⟩ := skipNewlines_total_yields [] ahead hstop
  rw [frontmatter?, bind_eq hrun, bind_eq (isAt_eq hstop _)]
  by_cases hopen : firstKind rest = .frontmatterOpen
  · obtain ⟨opener, rest, rfl, hopener⟩ := exists_cons_of_firstKind hopen (by decide)
    obtain ⟨taken, rest, block, hsplit, hblock, hrun⟩ :=
      frontmatter_total_yields ([] ++ leading) rest hstop hopener
    obtain ⟨trailing, rest, rfl, htrailing, hnewlines⟩ :=
      skipNewlines_total_yields ([] ++ leading ++ taken) rest hstop
    refine ⟨leading ++ taken ++ trailing, rest, some block, by simp [hsplit],
      .some hleading hblock htrailing, ?_⟩
    rw [if_pos (by simpa using hopen), bind_eq hrun, bind_eq hnewlines, EStateM.run_pure]
    simp
  · exact ⟨leading, rest, none, rfl, .none hleading, by
      rw [if_neg (by simpa using hopen), EStateM.run_pure, List.nil_append]⟩

/-- The statements of a program, up to the end or to what cannot be read. -/
inductive StatementsTo (limit : Nat) (complete : Bool) : Shape (List Statement)
  | none {before} : StatementsTo limit complete before [] [] []
  | all {before taken statements}
    (hstatements : Series (StatementAt (nestedTo limit)) (Separator .eof) before taken []
      statements) : StatementsTo limit complete before taken [] statements
  | fragment {before taken ahead statements} (hpartial : complete = false)
    (hstatements : Partial (StatementAt (nestedTo limit)) (Separator .eof) before taken ahead
      statements) : StatementsTo limit complete before taken ahead statements

theorem series_statements_ahead {nested : Nested} {before taken ahead : List Token}
    {statements : List Statement}
    (h : Series (StatementAt nested) (Separator .eof) before taken ahead statements) :
    firstKind ahead = .eof := by
  induction h with
  | last _ hagain =>
    cases hagain with
    | last _ hcloser => exact hcloser
  | more _ _ _ ih => exact ih

theorem eq_nil_of_firstKind {tokens : List Token} (heof : ∀ token ∈ tokens, token.kind ≠ .eof)
    (h : firstKind tokens = .eof) : tokens = [] := by
  cases tokens with
  | nil => rfl
  | cons token rest => exact absurd h (heof token (by simp))

theorem statementsToEnd_takes (limit : Nat) (before : List Token) {ahead : List Token}
    {stop : Token} (hstop : stop.kind = .eof) (heof : ∀ token ∈ ahead, token.kind ≠ .eof) :
    ∃ taken rest, ahead = taken ++ rest ∧
      StatementsTo limit
        (statementsToEnd (enterTo limit limit) (between before ahead stop)).error.isNone
        before taken rest
        (statementsToEnd (enterTo limit limit) (between before ahead stop)).items := by
  have hs := enterTo_sound limit limit
  rw [statementsToEnd, kind_peek_between _ hstop]
  split
  · next hend =>
    obtain rfl := eq_nil_of_firstKind heof hend
    exact ⟨[], [], rfl, .none⟩
  · simp only [harvestAll, rest_between]
    cases herror : (harvest (statement (enterTo limit limit)) (anotherStatement .eof)
        (ahead.length + 1) (between before ahead stop)).error with
    | none =>
      obtain ⟨taken, rest, rfl, -, hstatements⟩ :=
        harvest_yields ((statement_yields hs).at fun _ => True) anotherStatement_yields
          (fun _ _ _ _ => trivial) (fun _ _ _ _ => StatementAt.ne_nil) (ahead.length + 1) before
          hstop (Nat.lt_succ_self _) trivial herror
      obtain rfl := eq_nil_of_firstKind (fun token h => heof token (by simp [h]))
        (series_statements_ahead hstatements)
      exact ⟨taken, [], rfl, .all hstatements⟩
    | some error =>
      obtain ⟨taken, rest, rfl, hstatements⟩ :=
        harvest_takes ((statement_yields hs).at fun _ => True) anotherStatement_yields
          (fun _ _ _ _ => trivial) (ahead.length + 1) before ahead hstop trivial
      exact ⟨taken, rest, rfl, .fragment rfl hstatements⟩

end Grammar

namespace Program

open Grammar

@[simp] theorem statements_ofStatements? (frontmatter : Option FrontmatterBlock)
    (statements : List Statement) (span : Span) :
    (Program.mk frontmatter (Pipeline.ofStatements? statements) span).statements =
      statements := by
  cases statements with
  | nil => rfl
  | cons statement statements =>
    simp only [Program.statements, Pipeline.ofStatements?, List.head?_cons, List.getLast?_cons]

/-- The place of a program: from the next token to the last one. -/
def spanOf (tokens : List Token) : Span :=
  (TokenStream.ofTokens tokens).peek.span.through
    (TokenStream.finalToken (TokenStream.significant tokens)).span

/-- A program, or the fragment of one, that makes up tokens from the first one on. -/
inductive Derivation (limit : Nat) (complete : Bool) (tokens : List Token) : Program → Prop
  | intro {head taken ahead frontmatter statements}
    (htokens : (TokenStream.ofTokens tokens).rest = head ++ (taken ++ ahead))
    (hhead : HeadOf head frontmatter)
    (hstatements : StatementsTo limit complete head taken ahead statements) :
    Derivation limit complete tokens
      ⟨frontmatter, Pipeline.ofStatements? statements, spanOf tokens⟩

theorem ofTokens_takes (limit : Nat) (tokens : List Token) :
    (∀ program, ofTokens limit tokens = .ok program →
      Derivation limit true tokens program) ∧
    (∀ rejection, ofTokens limit tokens = .error rejection →
      Derivation limit false tokens rejection.fragment) := by
  have hstop := kind_stop_ofTokens tokens
  obtain ⟨head, rest, frontmatter, hsplit, hhead, hrun⟩ :=
    frontmatter?_total_yields (TokenStream.ofTokens tokens).rest hstop
  have heof : ∀ token ∈ rest, token.kind ≠ .eof := fun token h =>
    kind_ne_of_mem_rest (by rw [hsplit]; simp [h])
  obtain ⟨taken, ahead, rfl, hstatements⟩ := statementsToEnd_takes limit head hstop heof
  rw [EStateM.run, ← ofTokens_eq_between] at hrun
  simp only [ofTokens, hrun]
  cases herror : (statementsToEnd (enterTo limit limit)
      (between head (taken ++ ahead) (TokenStream.ofTokens tokens).stop)).error with
  | none =>
    rw [herror] at hstatements
    refine ⟨?_, by simp⟩
    rintro program ⟨⟩
    exact .intro hsplit hhead hstatements
  | some error =>
    rw [herror] at hstatements
    refine ⟨by simp, ?_⟩
    rintro rejection ⟨⟩
    exact .intro hsplit hhead hstatements

/-! ### Sources -/

theorem ofSource_of_tokenize {limit : Nat} {source : String} {tokens : List Token}
    (h : tokenize source = .ok tokens) :
    ofSource limit source = (ofTokens limit tokens).mapError .rejected := by
  rw [ofSource, h]
  dsimp only
  cases ofTokens limit tokens <;> rfl

theorem exists_tokens_of_ok {limit : Nat} {source : String} {program : Program}
    (h : ofSource limit source = .ok program) :
    ∃ tokens, tokenize source = .ok tokens ∧ ofTokens limit tokens = .ok program := by
  cases htokens : tokenize source with
  | error error => rw [ofSource, htokens] at h; cases h
  | ok tokens =>
    rw [ofSource_of_tokenize htokens] at h
    cases hprogram : ofTokens limit tokens with
    | error rejection => rw [hprogram] at h; cases h
    | ok found =>
      rw [hprogram] at h
      cases h
      exact ⟨tokens, rfl, hprogram⟩

end Program

end PipelineLang
