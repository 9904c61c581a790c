import PipelineLang.Proofs.Grammar.FirstTokens

/-!
# Rules of statements yield derivations

## Main results

- `Grammar.statement_yields` — what a statement takes, given what nested parts take
- `Grammar.enterTo_sound` — what nested parts take, to any depth

## Design notes

The arguments of an invocation are read in parentheses first. Only if that fails they
are read without, so a single argument in parentheses has something behind it that
does not end the invocation.
-/

namespace PipelineLang

open TokenStream Parse Shape

namespace Grammar

section

variable {enter : Enter} {nested : Nested} (hs : Sound enter nested)

include hs

/-! ### Statements that start with a word -/

theorem letBinding_yieldsAt :
    YieldsAt (fun ahead => firstKind ahead = .kwLet) (letBinding enter) (LetAt nested) := by
  intro before ahead stop statement behind hstop hahead h
  obtain ⟨keyword, rest, rfl, hkeyword, h⟩ := take_of_firstKind hahead (by decide) h
  obtain ⟨name, taken, rest, rfl, ⟨rfl, hname⟩, h⟩ :=
    (expect_yields .dollarVar (by decide)).of_bind hstop h
  obtain ⟨sign, taken, rest, rfl, ⟨rfl, hsign⟩, h⟩ :=
    (expect_yields .assign (by decide)).of_bind hstop h
  obtain ⟨value, tokens, rest, rfl, hvalue, h⟩ := (expression_yields hs).of_bind hstop h
  obtain ⟨rfl, rfl⟩ := pure_ok h
  exact ⟨keyword :: name :: sign :: tokens, rest, by simp, by simp,
    .intro hkeyword hname hsign (by simpa using hvalue)⟩

theorem conditional_yieldsAt :
    YieldsAt (fun ahead => firstKind ahead = .kwIf) (conditional enter)
      (ConditionalAt nested) := by
  intro before ahead stop statement behind hstop hahead h
  obtain ⟨keyword, rest, rfl, hkeyword, h⟩ := take_of_firstKind hahead (by decide) h
  obtain ⟨condition, tokens, rest, rfl, hcondition, h⟩ := (expression_yields hs).of_bind hstop h
  obtain ⟨consequence, others, rest, rfl, hconsequence, h⟩ :=
    (hs.yields .block fun _ => trivial).of_bind hstop h
  obtain ⟨found, taken, rest, rfl, hword, h⟩ :=
    (eats_yields .kwElse (by decide)).of_bind hstop h
  obtain ⟨rfl, word, rfl, hword⟩ | ⟨rfl, rfl, helse⟩ := hword
  · rw [if_pos rfl, bind_eq (isAt_eq hstop _)] at h
    split at h
    · next hif =>
      obtain ⟨inner, middle, hrun, hlast⟩ := bind_ok h
      obtain ⟨taken, rest, rfl, rfl, hinner⟩ :=
        hs.yieldsAt .conditional hstop (beq_iff_eq.mp hif) hrun
      obtain ⟨rfl, rfl⟩ := pure_ok hlast
      exact ⟨keyword :: (tokens ++ others ++ word :: taken), rest, by simp, by simp,
        .conditional hkeyword hword (by simpa using hcondition) (by simpa using hconsequence)
          (by simpa using hinner)⟩
    · obtain ⟨inner, taken, rest, rfl, hinner, h⟩ :=
        (hs.yields .block fun _ => trivial).of_bind hstop h
      obtain ⟨rfl, rfl⟩ := pure_ok h
      exact ⟨keyword :: (tokens ++ others ++ word :: taken), rest, by simp, by simp,
        .block hkeyword hword (by simpa using hcondition) (by simpa using hconsequence)
          (by simpa using hinner)⟩
  · rw [if_neg (by simp)] at h
    obtain ⟨rfl, rfl⟩ := pure_ok h
    exact ⟨keyword :: (tokens ++ others), rest, by simp, by simp,
      .absent hkeyword (by simpa using hcondition) hconsequence helse⟩

theorem selection_yieldsAt :
    YieldsAt (fun ahead => firstKind ahead = .kwMatch) (selection enter)
      (SelectionAt nested) := by
  intro before ahead stop statement behind hstop hahead h
  obtain ⟨keyword, rest, rfl, hkeyword, h⟩ := take_of_firstKind hahead (by decide) h
  obtain ⟨subject, tokens, rest, rfl, hsubject, h⟩ := (expression_yields hs).of_bind hstop h
  obtain ⟨opener, taken, rest, rfl, ⟨rfl, hopener⟩, h⟩ :=
    (expect_yields .lBrace (by decide)).of_bind hstop h
  obtain ⟨-, leading, rest, rfl, ⟨hleading, -⟩, h⟩ := skipNewlines_yields.of_bind hstop h
  obtain ⟨arms, others, rest, rfl, harms, h⟩ :=
    (hs.yields (.arms opener) fun _ => trivial).of_bind hstop h
  obtain ⟨closer, taken, rest, rfl, ⟨rfl, hcloser⟩, h⟩ :=
    (expectClosing_yields .rBrace (by decide)).of_bind hstop h
  obtain ⟨rfl, rfl⟩ := pure_ok h
  exact ⟨keyword :: (tokens ++ opener :: (leading ++ others ++ [closer])), rest, by simp, by simp,
    .intro hkeyword hopener hcloser hleading (by simpa using hsubject) (by simpa using harms)⟩

/-! ### Invocations -/

omit hs in
theorem commaBehind_yields : commaBehind.Yields CommaBehind := by
  intro before ahead stop found behind hstop h
  obtain ⟨present, taken, rest, rfl, hcomma, h⟩ :=
    (eats_yields .comma (by decide)).of_bind hstop h
  obtain ⟨rfl, comma, rfl, hcomma⟩ | ⟨rfl, rfl, hcomma⟩ := hcomma
  · rw [if_pos rfl] at h
    obtain ⟨-, newlines, rest, rfl, ⟨hnewlines, -⟩, h⟩ := skipNewlines_yields.of_bind hstop h
    obtain ⟨rfl, rfl⟩ := pure_ok h
    exact ⟨comma :: newlines, rest, by simp, by simp, .present hcomma hnewlines⟩
  · rw [if_neg (by simp)] at h
    obtain ⟨rfl, rfl⟩ := pure_ok h
    exact ⟨[], rest, rfl, rfl, .absent hcomma⟩

/-- Arguments in parentheses, or nothing. -/
theorem parenthesized?_yields : (parenthesized? enter).Yields fun before taken ahead found =>
    (∃ arguments, found = some arguments ∧ ParenthesizedAt nested before taken ahead arguments) ∨
    (found = none ∧ taken = []) := by
  intro before ahead stop found behind hstop h
  rw [parenthesized?, bind_eq (isAt_eq hstop _)] at h
  split at h
  · obtain ⟨arguments, rfl, hrun⟩ | ⟨rfl, rfl, -⟩ := attempt_ok h
    · obtain ⟨others, taken, rest, rfl, harguments, hlast⟩ :=
        (callArguments_yields hs).of_bind hstop hrun
      rw [bind_eq (peekKind_eq hstop)] at hlast
      split at hlast
      · next hend =>
        obtain ⟨hsame, rfl⟩ := pure_ok hlast
        obtain rfl := Option.some.inj hsame
        exact ⟨taken, rest, rfl, rfl, .inl ⟨_, rfl, .intro harguments (by simpa using hend)⟩⟩
      · exact absurd (pure_ok hlast).1 (by simp)
    · exact ⟨[], ahead, rfl, by simp, .inr ⟨rfl, rfl⟩⟩
  · obtain ⟨rfl, rfl⟩ := pure_ok h
    exact ⟨[], ahead, rfl, by simp, .inr ⟨rfl, rfl⟩⟩

omit hs in
/-- Where arguments in parentheses have been refused, the invocation does not end behind
them. -/
theorem notMem_of_parenthesized?_eq_none {before ahead : List Token} {stop : Token}
    {behind middle : TokenStream} {arguments : List Argument} (hstop : stop.kind = .eof)
    (hparen : firstKind ahead = .lParen)
    (h : (parenthesized? enter).run (between before ahead stop) = .ok none behind)
    (hrun : (callArguments enter).run (between before ahead stop) = .ok arguments middle) :
    middle.peek.kind ∉ invocationClosers := by
  intro hmem
  rw [parenthesized?, bind_eq (isAt_eq hstop _), if_pos (by simpa using hparen)] at h
  have hinner : (do
      let arguments ← callArguments enter
      return if invocationClosers.contains (← peekKind) then some arguments else none).run
        (between before ahead stop) = .ok (some arguments) middle := by
    refine (bind_eq hrun).trans ?_
    show EStateM.Result.ok (if invocationClosers.contains middle.peek.kind then
      some arguments else none) middle = _
    rw [if_pos (by simpa using hmem)]
  rw [attempt_eq_some hinner] at h
  simp at h

/-- Arguments without parentheses, where arguments in parentheses have been refused. -/
theorem bareArguments_sound {before ahead : List Token} {stop : Token}
    {behind last : TokenStream} {arguments : List Argument} (hstop : stop.kind = .eof)
    (hrefused : firstKind ahead = .lParen →
      (parenthesized? enter).run (between before ahead stop) = .ok none last)
    (h : (bareArguments enter).run (between before ahead stop) = .ok arguments behind) :
    ∃ taken rest, ahead = taken ++ rest ∧ behind = between (before ++ taken) rest stop ∧
      BareAt nested before taken rest arguments := by
  obtain ⟨taken, rest, rfl, rfl, harguments⟩ :=
    series_yields (argument_yields hs) commaBehind_yields
      (fun _ _ _ _ => argument_progress hs) hstop h
  refine ⟨taken, rest, rfl, rfl, harguments, ?_⟩
  rintro inner span rfl hclosed
  have hne : (between before (taken ++ rest) stop).rest ≠ [] := by
    cases harguments with
    | last hitem _ =>
      have := argument_progress hs hitem
      simp [this]
    | more hitem _ _ =>
      have := argument_progress hs hitem
      simp [this]
  obtain ⟨middle, hargument, hcomma⟩ := series_eq_singleton hne h
  -- the argument is an expression, since it is no assignment
  obtain ⟨assignment?, here, hassignment, hvalue⟩ := bind_ok hargument
  obtain ⟨none?, others, hsplit, rfl, hfound⟩ := assignment?_yields hs hstop hassignment
  obtain ⟨⟨target, value⟩, rfl, -⟩ | ⟨rfl, rfl⟩ := hfound
  · exact absurd (pure_ok hvalue).1 (by simp)
  rw [List.nil_append] at hsplit
  subst hsplit
  rw [List.append_nil] at hvalue
  obtain ⟨value, middle, hexpression, hvalue⟩ := bind_ok hvalue
  obtain ⟨hsame, rfl⟩ := pure_ok hvalue
  obtain rfl := (Argument.positional.inj hsame).symm
  -- it starts with a parenthesis, so it could have been read as arguments
  obtain ⟨tokens, others, hsplit, rfl, hshape⟩ := expression_yields hs hstop hexpression
  have hopening := hs.opening hshape
  obtain ⟨opener, tokens, rfl, hopener⟩ := exists_cons_of_firstKind hopening (by decide)
  rw [hsplit] at hexpression hrefused
  obtain ⟨arguments, hcall⟩ := hs.arguments hstop hopener hexpression
  have hparen : firstKind (opener :: tokens ++ others) = .lParen := hopener
  have hend := notMem_of_parenthesized?_eq_none hstop hparen (hrefused hparen) hcall
  -- behind it no comma is taken, so the invocation ends there
  obtain ⟨gap, last, rfl, hbehind, hgap⟩ := commaBehind_yields hstop hcomma
  obtain ⟨-⟩ := hgap
  rw [List.append_nil] at hbehind
  rw [List.nil_append, ← hbehind, kind_peek_between _ hstop] at hend
  exact hend hclosed

theorem operatorArguments_yields :
    (operatorArguments enter).Yields (OperatorArgumentsAt nested) := by
  intro before ahead stop found behind hstop h
  obtain ⟨parenthesized, middle, hfirst, hrest⟩ := bind_ok h
  obtain ⟨taken, rest, rfl, rfl, hparen⟩ := parenthesized?_yields hs hstop hfirst
  obtain ⟨arguments, rfl, harguments⟩ | ⟨rfl, rfl⟩ := hparen
  · obtain ⟨rfl, rfl⟩ := pure_ok hrest
    exact ⟨taken, rest, rfl, rfl, .parenthesized harguments⟩
  rw [List.append_nil] at hrest
  simp only [bind_eq (peekKind_eq hstop)] at hrest
  split at hrest
  · next hstart =>
    obtain ⟨rfl, rfl⟩ := pure_ok hrest
    exact ⟨[], rest, rfl, by simp, .none fun h => by simp [h] at hstart⟩
  split at hrest
  · next hbrace =>
    rw [beq_iff_eq] at hbrace
    obtain ⟨found, middle, hattempt, hlast⟩ := bind_ok hrest
    obtain ⟨rfl, rfl⟩ := pure_ok hlast
    obtain ⟨arguments, rfl, hrun⟩ | ⟨rfl, rfl, -⟩ := attempt_ok hattempt
    · obtain ⟨_, hbare, hsame⟩ := map_ok hrun
      obtain rfl := Option.some.inj hsame
      obtain ⟨taken, rest, rfl, rfl, harguments⟩ :=
        bareArguments_sound hs hstop (fun _ => hfirst) hbare
      exact ⟨taken, rest, rfl, rfl, .bare harguments⟩
    · exact ⟨[], rest, rfl, by simp, .none fun _ => hbrace⟩
  · obtain ⟨arguments, middle, hbare, hlast⟩ := bind_ok hrest
    obtain ⟨rfl, rfl⟩ := pure_ok hlast
    obtain ⟨taken, rest, rfl, rfl, harguments⟩ :=
      bareArguments_sound hs hstop (fun _ => hfirst) hbare
    exact ⟨taken, rest, rfl, rfl, .bare harguments⟩

theorem operatorBlock_yields : (operatorBlock enter).Yields (OperatorBlockAt nested) := by
  intro before ahead stop found behind hstop h
  rw [operatorBlock, bind_eq (isAt_eq hstop _)] at h
  split at h
  · next hbrace =>
    obtain ⟨opener, rest, rfl, hopener, h⟩ :=
      take_of_firstKind (beq_iff_eq.mp hbrace) (by decide) h
    obtain ⟨-, leading, rest, rfl, ⟨hleading, -⟩, h⟩ := skipNewlines_yields.of_bind hstop h
    obtain ⟨body, tokens, rest, rfl, hbody, h⟩ :=
      (hs.yields (.pipeline opener) fun _ => trivial).of_bind hstop h
    obtain ⟨closer, taken, rest, rfl, ⟨rfl, hcloser⟩, h⟩ :=
      (expectClosing_yields .rBrace (by decide)).of_bind hstop h
    obtain ⟨found, taken, rest, rfl, hcomma, h⟩ := commaBehind_yields.of_bind hstop h
    cases hcomma with
    | absent hcomma =>
      rw [if_neg (by simp)] at h
      obtain ⟨rfl, rfl⟩ := pure_ok h
      exact ⟨opener :: (leading ++ tokens ++ [closer]), rest, by simp, by simp,
        .alone hopener hcloser hleading (by simpa using hbody) hcomma⟩
    | @present _ comma newlines _ hcomma hnewlines =>
      rw [if_pos rfl] at h
      obtain ⟨parenthesized, middle, hfirst, hrest⟩ := bind_ok h
      obtain ⟨others, rest, rfl, rfl, hparen⟩ := parenthesized?_yields hs hstop hfirst
      obtain ⟨arguments, rfl, harguments⟩ | ⟨rfl, rfl⟩ := hparen
      · obtain ⟨rfl, rfl⟩ := pure_ok hrest
        exact ⟨opener :: (leading ++ tokens ++ closer :: comma :: (newlines ++ others)), rest,
          by simp, by simp, .parenthesized hopener hcloser hcomma hleading hnewlines
            (by simpa using hbody) (by simpa using harguments)⟩
      · rw [List.append_nil] at hrest
        obtain ⟨arguments, middle, hbare, hlast⟩ := bind_ok hrest
        obtain ⟨rfl, rfl⟩ := pure_ok hlast
        obtain ⟨others, rest, rfl, rfl, harguments⟩ :=
          bareArguments_sound hs hstop (fun _ => hfirst) hbare
        exact ⟨opener :: (leading ++ tokens ++ closer :: comma :: (newlines ++ others)), rest,
          by simp, by simp, .bare hopener hcloser hcomma hleading hnewlines
            (by simpa using hbody) (by simpa using harguments)⟩
  · next hbrace =>
    obtain ⟨rfl, rfl⟩ := pure_ok h
    exact ⟨[], ahead, rfl, by simp, .none (by simpa using hbrace)⟩

theorem invocation_yields : (invocation enter).Yields (InvocationAt nested) := by
  intro before ahead stop statement behind hstop h
  obtain ⟨operator, name, rest, rfl, hname, h⟩ := entity_yields.of_bind hstop h
  obtain ⟨⟨arguments, parenthesized⟩, tokens, rest, rfl, harguments, h⟩ :=
    (operatorArguments_yields hs).of_bind hstop h
  obtain ⟨⟨block, trailing⟩, others, rest, rfl, hblock, h⟩ :=
    (operatorBlock_yields hs).of_bind hstop h
  have hne : name ++ tokens ++ others ≠ [] := by simp [hname.1.ne_nil]
  rw [lastSpan_bind, List.append_assoc before, List.append_assoc before,
    lastSpan_between_append _ _ _ hne] at h
  obtain ⟨rfl, rfl⟩ := pure_ok h
  exact ⟨name ++ tokens ++ others, rest, by simp, by simp,
    .intro (by simpa using hname) harguments hblock⟩

/-! ### Statements -/

theorem assignmentOrInvocation_yields :
    (assignmentOrInvocation enter).Yields (StatementAt nested) := by
  intro before ahead stop statement behind hstop h
  obtain ⟨found, middle, hfirst, hrest⟩ := bind_ok h
  obtain ⟨pair, middle, hpair, hlast⟩ := bind_ok hfirst
  obtain ⟨taken, rest, rfl, rfl, hfound⟩ := assignment?_yields hs hstop hpair
  obtain ⟨⟨target, value⟩, rfl, hassignment⟩ | ⟨rfl, rfl⟩ := hfound
  · obtain ⟨rfl, rfl⟩ := pure_ok hlast
    obtain ⟨rfl, rfl⟩ := pure_ok hrest
    exact ⟨taken, rest, rfl, rfl, .assignment hassignment⟩
  · obtain ⟨rfl, rfl⟩ := pure_ok hlast
    simp only [List.append_nil, bind_eq (isAt_eq hstop _)] at hrest
    split at hrest
    · obtain ⟨taken, rest, rfl, rfl, hinvocation⟩ := invocation_yields hs hstop hrest
      exact ⟨taken, rest, rfl, rfl, .invocation hinvocation⟩
    · obtain ⟨found, middle, -, hlast⟩ := bind_ok hrest
      cases found <;> exact absurd hlast unexpected_ne_ok

theorem statement_yields : (statement enter).Yields (StatementAt nested) := by
  intro before ahead stop statement behind hstop h
  rw [Grammar.statement, bind_eq (peekKind_eq hstop)] at h
  split at h
  · next hk =>
    obtain ⟨taken, rest, rfl, rfl, hlet⟩ := letBinding_yieldsAt hs hstop hk h
    exact ⟨taken, rest, rfl, rfl, .letBinding hlet⟩
  · next hk =>
    obtain ⟨inner, middle, hrun, hlast⟩ := bind_ok h
    obtain ⟨taken, rest, rfl, rfl, hinner⟩ := conditional_yieldsAt hs hstop hk hrun
    obtain ⟨rfl, rfl⟩ := pure_ok hlast
    exact ⟨taken, rest, rfl, rfl, .conditional hinner⟩
  · next hk =>
    obtain ⟨taken, rest, rfl, rfl, hselection⟩ := selection_yieldsAt hs hstop hk h
    exact ⟨taken, rest, rfl, rfl, .selection hselection⟩
  · exact assignmentOrInvocation_yields hs hstop h
  · exact assignmentOrInvocation_yields hs hstop h
  · exact assignmentOrInvocation_yields hs hstop h
  · exact absurd h unexpected_ne_ok

/-! ### Pipelines, blocks and arms -/

omit hs in
/-- A statement takes a token. -/
theorem StatementAt.ne_nil {before taken ahead : List Token} {statement : Statement}
    (h : StatementAt nested before taken ahead statement) : taken ≠ [] := by
  cases h with
  | letBinding h | selection h | assignment h => cases h; simp
  | conditional h => cases h <;> simp
  | invocation h =>
    obtain ⟨⟨hpath, -⟩, -, -⟩ := h
    simp [hpath.ne_nil]

omit hs in
theorem anotherStatement_yields {closer : TokenKind} :
    (anotherStatement closer).Yields (Separator closer) := by
  intro before ahead stop found behind hstop h
  obtain ⟨separated, taken, rest, rfl, ⟨htaken, -, hsome⟩, h⟩ :=
    (skip_yields [.newline, .pipe] (by decide)).of_bind hstop h
  rw [bind_eq (isAt_eq hstop _)] at h
  split at h
  · next hcloser =>
    obtain ⟨rfl, rfl⟩ := pure_ok h
    exact ⟨taken, rest, rfl, rfl, .last htaken (beq_iff_eq.mp hcloser)⟩
  · split at h
    · next hseparated =>
      obtain ⟨rfl, rfl⟩ := pure_ok h
      exact ⟨taken, rest, rfl, rfl, .more htaken (hsome.mp hseparated)⟩
    · exact absurd h unexpected_ne_ok

omit hs in
theorem closing_ok {α : Type} {opener : Token} {rule : Parse α} {stream behind : TokenStream}
    {a : α} (h : (closing opener rule).run stream = .ok a behind) :
    rule.run stream = .ok a behind := by
  simp only [closing, EStateM.run] at h ⊢
  split at h
  · next hrun =>
    obtain ⟨rfl, rfl⟩ := pure_ok h
    exact hrun
  · split at h
    · exact absurd h unclosed_ne_ok
    · simp at h

theorem pipelineBehind_yields (opener : Token) :
    (pipelineBehind enter opener).Yields (PipelineAt nested) := by
  intro before ahead stop pipeline behind hstop h
  rw [pipelineBehind, bind_eq (isAt_eq hstop _)] at h
  split at h
  · exact absurd h unclosed_ne_ok
  · obtain ⟨statements, middle, hseries, hlast⟩ := bind_ok (closing_ok h)
    obtain ⟨taken, rest, rfl, rfl, hstatements⟩ :=
      series_yields (statement_yields hs) anotherStatement_yields
        (fun _ _ _ _ => StatementAt.ne_nil) hstop hseries
    split at hlast
    · next pipeline hpipeline =>
      obtain ⟨rfl, rfl⟩ := pure_ok hlast
      have hspan := hpipeline
      simp only [Pipeline.ofStatements?] at hpipeline
      split at hpipeline
      · obtain rfl := Option.some.inj hpipeline
        exact ⟨taken, rest, rfl, rfl, .intro hstatements hspan⟩
      · simp at hpipeline
    · exact absurd hlast unexpected_ne_ok

theorem block_yields : (block enter).Yields (BlockAt nested) := by
  intro before ahead stop block behind hstop h
  obtain ⟨opener, taken, rest, rfl, ⟨rfl, hopener⟩, h⟩ :=
    (expect_yields .lBrace (by decide)).of_bind hstop h
  obtain ⟨-, leading, rest, rfl, ⟨hleading, -⟩, h⟩ := skipNewlines_yields.of_bind hstop h
  rw [bind_eq (isAt_eq hstop _)] at h
  split at h
  · rw [pure_bind] at h
    obtain ⟨closer, taken, rest, rfl, ⟨rfl, hcloser⟩, h⟩ :=
      (expectClosing_yields .rBrace (by decide)).of_bind hstop h
    obtain ⟨rfl, rfl⟩ := pure_ok h
    exact ⟨opener :: (leading ++ [closer]), rest, by simp, by simp,
      .empty hopener hcloser hleading⟩
  · obtain ⟨body?, middle, hmap, hrest⟩ := bind_ok h
    obtain ⟨body, hrun, rfl⟩ := map_ok hmap
    obtain ⟨tokens, rest, rfl, rfl, hbody⟩ := pipelineBehind_yields hs opener hstop hrun
    obtain ⟨closer, taken, rest, rfl, ⟨rfl, hcloser⟩, hlast⟩ :=
      (expectClosing_yields .rBrace (by decide)).of_bind hstop hrest
    obtain ⟨rfl, rfl⟩ := pure_ok hlast
    exact ⟨opener :: (leading ++ tokens ++ [closer]), rest, by simp, by simp,
      .body hopener hcloser hleading (by simpa using hbody)⟩

theorem pattern_yields : (pattern enter).Yields (PatternAt nested) := by
  intro before ahead stop value behind hstop h
  rw [pattern, bind_eq (atArrow_eq hstop)] at h
  split at h
  · next harrow =>
    obtain ⟨taken, rest, rfl, rfl, hpattern⟩ := primary_yields hs hstop h
    exact ⟨taken, rest, rfl, rfl, .name (by simpa [ArrowAhead] using harrow) hpattern⟩
  · next harrow =>
    obtain ⟨taken, rest, rfl, rfl, hpattern⟩ := expression_yields hs hstop h
    exact ⟨taken, rest, rfl, rfl, .expression (by simpa [ArrowAhead] using harrow) hpattern⟩

omit hs in
theorem PrimaryAt.ne_nil {before taken ahead : List Token} {value : Expr}
    (h : PrimaryAt nested before taken ahead value) : taken ≠ [] := by
  rintro rfl
  exact absurd h.startsArgument (by decide)

theorem arm_yields : (arm enter).Yields (ArmAt nested) := by
  intro before ahead stop arm behind hstop h
  have hpatterns := series_yields (pattern_yields hs) commaBehind_yields (by
    rintro _ _ _ _ (⟨-, hpattern⟩ | ⟨-, hpattern⟩)
    · exact hpattern.ne_nil
    · exact hs.progress hpattern)
  obtain ⟨patterns, tokens, rest, rfl, hpatterns, h⟩ := hpatterns.of_bind hstop h
  obtain ⟨arrow, taken, rest, rfl, ⟨rfl, harrow⟩, h⟩ :=
    (expect_yields .fatArrow (by decide)).of_bind hstop h
  obtain ⟨opener, taken, rest, rfl, ⟨rfl, hopener⟩, h⟩ :=
    (expect_yields .lBrace (by decide)).of_bind hstop h
  obtain ⟨-, leading, rest, rfl, ⟨hleading, -⟩, h⟩ := skipNewlines_yields.of_bind hstop h
  obtain ⟨body, others, rest, rfl, hbody, h⟩ :=
    (hs.yields (.pipeline opener) fun _ => trivial).of_bind hstop h
  obtain ⟨closer, taken, rest, rfl, ⟨rfl, hcloser⟩, h⟩ :=
    (expectClosing_yields .rBrace (by decide)).of_bind hstop h
  obtain ⟨rfl, rfl⟩ := pure_ok h
  exact ⟨tokens ++ arrow :: opener :: (leading ++ others ++ [closer]), rest, by simp, by simp,
    .intro harrow hopener hcloser hleading (by simpa using hpatterns) (by simpa using hbody)⟩

omit hs in
theorem ArmAt.ne_nil {before taken ahead : List Token} {arm : Arm}
    (h : ArmAt nested before taken ahead arm) : taken ≠ [] := by
  cases h
  simp

omit hs in
theorem atArm_ok {opener : Token} {before ahead : List Token} {stop : Token} {found : Bool}
    {behind : TokenStream} (hstop : stop.kind = .eof)
    (h : (atArm opener).run (between before ahead stop) = .ok found behind) :
    behind = between before ahead stop ∧ (found = false → firstKind ahead = .rBrace) := by
  rw [atArm, bind_eq (peekKind_eq hstop)] at h
  split at h
  · next hk =>
    obtain ⟨rfl, rfl⟩ := pure_ok h
    exact ⟨rfl, fun _ => hk⟩
  · exact absurd h unclosed_ne_ok
  · obtain ⟨rfl, rfl⟩ := pure_ok h
    exact ⟨rfl, by simp⟩

omit hs in
theorem anotherArm_yields (opener : Token) : (anotherArm opener).Yields ArmSeparator := by
  intro before ahead stop found behind hstop h
  obtain ⟨-, taken, rest, rfl, ⟨htaken, -, -⟩, h⟩ :=
    (skip_yields [.newline, .comma] (by decide)).of_bind hstop h
  obtain ⟨rfl, hfound⟩ := atArm_ok hstop h
  cases found with
  | false => exact ⟨taken, rest, rfl, rfl, .last htaken (hfound rfl)⟩
  | true => exact ⟨taken, rest, rfl, rfl, .more htaken⟩

theorem armsBehind_yields (opener : Token) :
    (armsBehind enter opener).Yields (ArmsBehindAt nested) := by
  intro before ahead stop arms behind hstop h
  obtain ⟨found, middle, hfound, hrest⟩ := bind_ok h
  obtain ⟨rfl, -⟩ := atArm_ok hstop hfound
  split at hrest
  · obtain ⟨taken, rest, rfl, rfl, harms⟩ :=
      series_yields (arm_yields hs) (anotherArm_yields opener) (fun _ _ _ _ => ArmAt.ne_nil)
        hstop hrest
    exact ⟨taken, rest, rfl, rfl, .some harms⟩
  · obtain ⟨rfl, rfl⟩ := pure_ok hrest
    exact ⟨[], ahead, rfl, by simp, .none⟩

/-! ### Nested parts -/

theorem rule_yieldsAt {α : Type} (goal : Goal α) :
    YieldsAt (Starts goal) (goal.rule enter) (goal.At nested) := by
  cases goal with
  | expression least => exact (chain_yields hs least).at _
  | listItems => exact (listItems_yields hs).at _
  | recordItems => exact (recordItems_yields hs).at _
  | arguments opener => exact (argumentsBehind_yields hs opener).at _
  | conditional => exact conditional_yieldsAt hs
  | block => exact (block_yields hs).at _
  | arms opener => exact (armsBehind_yields hs opener).at _
  | pipeline opener => exact (pipelineBehind_yields hs opener).at _

end

/-! ### Expressions in parentheses -/

theorem foldl_join (first : Expr) (links : List (BinaryOp × Expr)) :
    links = [] ∨ ∃ op left right span, links.foldl join first = .binary op left right span := by
  obtain rfl | ⟨links, link, rfl⟩ := links.eq_nil_or_concat
  · exact .inl rfl
  · rw [List.concat_eq_append, List.foldl_append]
    exact .inr ⟨_, _, _, _, rfl⟩

theorem foldl_apply_eq_paren {receiver inner : Expr} {suffixes : List Suffix} {span : Span}
    (h : suffixes.foldl Suffix.apply receiver = .paren inner span) :
    suffixes = [] ∧ receiver = .paren inner span := by
  obtain rfl | ⟨suffixes, suffix, rfl⟩ := suffixes.eq_nil_or_concat
  · exact ⟨rfl, h⟩
  · rw [List.concat_eq_append, List.foldl_append] at h
    cases suffix <;> simp [Suffix.apply] at h

theorem foldl_join_eq_paren {first inner : Expr} {links : List (BinaryOp × Expr)} {span : Span}
    (h : links.foldl join first = .paren inner span) :
    links = [] ∧ first = .paren inner span := by
  obtain rfl | ⟨op, left, right, span', hbinary⟩ := foldl_join first links
  · exact ⟨rfl, h⟩
  · rw [hbinary] at h
    simp at h

theorem nameOrPlaceholder_ne_paren {token : Token} {inner : Expr} {span : Span} :
    nameOrPlaceholder token ≠ .paren inner span := by
  rw [nameOrPlaceholder]
  split <;> simp

theorem opening_of_paren {nested : Nested} {least : Nat} {before taken ahead : List Token}
    {inner : Expr} {span : Span} (h : ChainAt nested least before taken ahead (.paren inner span)) :
    firstKind taken = .lParen := by
  generalize hvalue : Expr.paren inner span = value at h
  obtain ⟨hfirst, -, -⟩ := h
  obtain ⟨-, rfl⟩ := foldl_join_eq_paren hvalue.symm
  obtain - | - | ⟨-, -, hoperand⟩ := hfirst
  generalize hvalue : Expr.paren inner span = value at hoperand
  obtain ⟨hreceiver, -, -⟩ := hoperand
  obtain ⟨-, rfl⟩ := foldl_apply_eq_paren hvalue.symm
  generalize hvalue : Expr.paren inner span = value at hreceiver
  cases hreceiver with
  | paren hopener _ _ _ _ => exact hopener
  | name _ _ => exact absurd hvalue.symm nameOrPlaceholder_ne_paren
  | _ => simp at hvalue

section

variable {before ahead : List Token} {opener stop : Token} {behind : TokenStream}

theorem eq_of_many_nil {α : Type} {rule : Parse (List α)} {I : Shape α} {p : List Token → Prop}
    (hrule : rule.Yields fun before taken ahead items =>
      Many I before taken ahead items ∧ p ahead) (hstop : stop.kind = .eof)
    (h : rule.run (between before ahead stop) = .ok [] behind) :
    behind = between before ahead stop := by
  obtain ⟨taken, rest, rfl, rfl, hmany, -⟩ := hrule hstop h
  cases hmany
  simp

variable {enter : Enter} {nested : Nested} (hs : Sound enter nested) {inner : Expr} {span : Span}

include hs

/-- A chain that is an expression in parentheses is an operand alone. -/
theorem primary_of_paren (hstop : stop.kind = .eof) (hopener : opener.kind = .lParen)
    (h : (chain enter 0).run (between before (opener :: ahead) stop) =
      .ok (.paren inner span) behind) :
    (primary enter).run (between before (opener :: ahead) stop) =
      .ok (.paren inner span) behind := by
  obtain ⟨first, middle, hoperand, hlinks⟩ := bind_ok h
  obtain ⟨links, last, hmany, hend⟩ := bind_ok hlinks
  obtain ⟨hvalue, rfl⟩ := pure_ok hend
  obtain ⟨rfl, rfl⟩ := foldl_join_eq_paren hvalue.symm
  obtain ⟨tokens, rest, hsplit, rfl, -⟩ := operand_yields hs hstop hoperand
  obtain rfl := eq_of_many_nil (links_yields hs 0) hstop hmany
  rw [operand, bind_eq (peekKind_eq hstop), firstKind_cons, hopener] at hoperand
  change (atArrow >>= _).run _ = _ at hoperand
  rw [bind_eq (atArrow_eq hstop), if_neg (by simp [hopener])] at hoperand
  obtain ⟨receiver, middle, hprimary, hsuffixes⟩ := bind_ok hoperand
  obtain ⟨suffixes, last, hmany, hend⟩ := bind_ok hsuffixes
  obtain ⟨hvalue, rfl⟩ := pure_ok hend
  obtain ⟨rfl, rfl⟩ := foldl_apply_eq_paren hvalue.symm
  obtain ⟨tokens, rest, hsplit, rfl, -⟩ := primary_yields hs hstop hprimary
  rw [eq_of_many_nil (suffixes_yields hs) hstop hmany]
  exact hprimary

/-- What stands between parentheses can be read as an argument. -/
theorem argumentsBehind_of_paren (hstop : stop.kind = .eof) (hopener : opener.kind = .lParen)
    (hhead : ∀ {before taken ahead value}, nested _ (.expression 0) before taken ahead value →
      Unassigning taken ∧ startsArgument (firstKind taken))
    (h : (primary enter).run (between before (opener :: ahead) stop) =
      .ok (.paren inner span) behind) :
    (argumentsBehind enter opener).run (between (before ++ [opener]) ahead stop) =
      .ok [.positional inner] behind := by
  rw [primary, peek_bind, peek_between_cons, hopener] at h
  change (take >>= _).run _ = _ at h
  rw [bind_eq take_eq] at h
  obtain ⟨_, middle, hleading, h⟩ := bind_ok h
  obtain ⟨value, middle', hvalue, h⟩ := bind_ok h
  obtain ⟨_, last, htrailing, h⟩ := bind_ok h
  obtain ⟨closer, behind, hcloser, hlast⟩ := bind_ok h
  obtain ⟨hsame, rfl⟩ := pure_ok hlast
  obtain ⟨rfl, rfl⟩ := Expr.paren.inj hsame
  obtain ⟨leading, rest, rfl, rfl, -, -⟩ := skipNewlines_yields hstop hleading
  obtain ⟨tokens, rest, rfl, rfl, hshape⟩ := expression_yields hs hstop hvalue
  obtain ⟨trailing, rest, rfl, rfl, hnewlines, -⟩ := skipNewlines_yields hstop htrailing
  obtain ⟨_, rest, rfl, rfl, rfl, hk⟩ :=
    expectClosing_yields .rParen (by decide) hstop hcloser
  obtain ⟨hunassigning, hstart⟩ := hhead hshape
  have hfirst : firstKind (tokens ++ (trailing ++ ([closer] ++ rest))) = firstKind tokens :=
    firstKind_append (ne_eof_of_startsArgument hstart)
  -- the expression is an argument, as no equals sign comes behind a selector
  have hargument : (argument enter).run
      (between (before ++ [opener] ++ leading) (tokens ++ (trailing ++ ([closer] ++ rest))) stop) =
      .ok (.positional inner) (between (before ++ [opener] ++ leading ++ tokens)
        (trailing ++ ([closer] ++ rest)) stop) := by
    refine (bind_eq (assignment?_eq_none hstop (hunassigning _
      (unassigning_newlines hnewlines _ ?_)))).trans (bind_eq hvalue)
    rw [List.singleton_append, signAhead_cons_of_notMem (by rw [hk]; decide), hk]
    simp
  -- behind it no comma comes
  have hlast : (anotherItem .rParen).run
      (between (before ++ [opener] ++ leading ++ tokens) (trailing ++ ([closer] ++ rest)) stop) =
      .ok false (between (before ++ [opener] ++ leading ++ tokens ++ trailing)
        ([closer] ++ rest) stop) :=
    (bind_eq htrailing).trans (bind_eq (eats_eq_false hstop (by
      rw [List.singleton_append, firstKind_cons, hk]
      decide)))
  have hitems : (items (argument enter) .rParen).run
      (between (before ++ [opener]) (leading ++ (tokens ++ (trailing ++ ([closer] ++ rest))))
        stop) =
      .ok [.positional inner] (between (before ++ [opener] ++ leading ++ tokens ++ trailing)
        ([closer] ++ rest) stop) := by
    rw [items, bind_eq hleading, bind_eq (isAt_eq hstop _), bind_eq (isAt_eq hstop _), hfirst,
      if_neg, series_eq_of_last hargument hlast]
    intro hend
    rw [Bool.or_eq_true, beq_iff_eq, beq_iff_eq] at hend
    obtain hend | hend := hend <;> exact absurd hstart (by rw [hend]; decide)
  exact (bind_eq hitems).trans (bind_eq hcloser)

end

/-! ### Nested parts to any depth -/

/-- Nested parts that are read to some depth have derivations of that depth. -/
theorem enterTo_sound (limit depth : Nat) : Sound (enterTo limit depth) (nestedTo depth) := by
  have hprogress : ∀ {depth least before taken ahead value},
      nestedTo depth _ (.expression least) before taken ahead value → taken ≠ [] := by
    intro depth least before taken ahead value h hnil
    have hstart := startsArgument_expression h
    rw [hnil] at hstart
    exact absurd hstart (by decide)
  induction depth with
  | zero =>
    exact ⟨fun _ _ _ _ _ _ _ _ h => absurd h fail_ne_ok, hprogress, fun h => h.elim,
      fun _ _ h => absurd h fail_ne_ok⟩
  | succ depth ih =>
    refine ⟨rule_yieldsAt ih, hprogress, opening_of_paren, ?_⟩
    intro before ahead opener stop inner span behind hstop hopener h
    refine ⟨[.positional inner], (bind_eq (expect_eq hstop hopener)).trans ?_⟩
    exact argumentsBehind_of_paren ih hstop hopener
      (fun h => ⟨unassigning_expression h, startsArgument_expression h⟩)
      (primary_of_paren ih hstop hopener h)

end Grammar

end PipelineLang
