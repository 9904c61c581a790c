import PipelineLang.Proofs.Grammar.StatementStarts

/-!
# Derived statements are read

## Main results

- `Grammar.derived_invocation` — invocations, whose arguments may be read in two ways
- `Grammar.derived_statement`, `Grammar.derived_block` — statements and blocks
- `Grammar.readsDerived_enterTo` — all derived parts are read, if they may be nested deep enough

## Design notes

A reading that a derivation leaves out fails whatever the nesting may be, since the first
tokens already tell it from the one that is derived.
-/

namespace PipelineLang

open TokenStream Parse Shape

namespace Grammar

/-! ### Rules of statements -/

section

variable {limit depth depth' : Nat} {stop : Token} (hstop : stop.kind = .eof)
  {before taken ahead ahead' : List Token} (before' : List Token)
  (hd : ReadsDerived (enterTo limit depth') (nestedTo depth))

include hstop hd

theorem derived_letBinding {statement : Statement}
    (h : LetAt (nestedTo depth) before taken ahead statement) (hsame : Alike ahead ahead')
    (hahead : firstKind ahead' ≠ .question) :
    (letBinding (enterTo limit depth')).Takes stop before' taken ahead' statement := by
  obtain @⟨_, keyword, name, sign, tokens, _, value, -, hname, hsign, hvalue⟩ := h
  exact (take_takes keyword).bind_cons ((expect_takes hstop hname).bind_cons
    ((expect_takes hstop hsign).bind_cons
      ((derived_expression hstop _ hd hvalue hsame hahead).bind_pure (takes_pure _))))

theorem derived_conditional {inner : Conditional}
    (h : ConditionalAt (nestedTo depth) before taken ahead inner) (hsame : Alike ahead ahead') :
    (conditional (enterTo limit depth')).Takes stop before' taken ahead' inner := by
  have hquestion : ∀ {before tokens ahead : List Token} {block : Block},
      nestedTo depth _ .block before tokens ahead block → ∀ ahead' : List Token,
      firstKind (tokens ++ ahead') ≠ .question :=
    fun hblock ahead' => by rw [firstKind_block hblock]; decide
  cases h with
  | @absent _ keyword tokens others _ condition consequence hkeyword hcondition hconsequence
      helse =>
    have hnone : firstKind ahead' ≠ .kwElse :=
      fun hk => helse ((hsame.first_iff (by decide)).mpr hk)
    refine (take_takes keyword).bind_cons ((derived_expression hstop _ hd hcondition
      (hsame.append others) (hquestion hconsequence ahead')).bind ?_)
    refine (hd hstop hconsequence _ hsame trivial).bind_pure ?_
    exact (eats_takes_nil hstop hnone).bind_none (takes_pure _)
  | @conditional _ keyword word tokens others rest _ condition consequence inner hkeyword hword
      hcondition hconsequence hinner =>
    rw [List.append_assoc]
    refine (take_takes keyword).bind_cons ((derived_expression hstop _ hd hcondition
      (hsame.append (others ++ word :: rest)) ?_).bind
        ((hd hstop hconsequence _ (Alike.cons word (hsame.append rest)) trivial).bind ?_))
    · rw [List.append_assoc]
      exact hquestion hconsequence _
    · refine (eats_takes hstop hword).bind_cons ((isAt_takes hstop .kwIf).bind_nil ?_)
      rw [beq_iff_eq.mpr (firstKind_conditional hinner ahead')]
      exact (hd hstop hinner _ hsame trivial).bind_pure (takes_pure _)
  | @block _ keyword word tokens others rest _ condition consequence inner hkeyword hword
      hcondition hconsequence hinner =>
    rw [List.append_assoc]
    refine (take_takes keyword).bind_cons ((derived_expression hstop _ hd hcondition
      (hsame.append (others ++ word :: rest)) ?_).bind
        ((hd hstop hconsequence _ (Alike.cons word (hsame.append rest)) trivial).bind ?_))
    · rw [List.append_assoc]
      exact hquestion hconsequence _
    · refine (eats_takes hstop hword).bind_cons ((isAt_takes hstop .kwIf).bind_nil ?_)
      rw [firstKind_block hinner ahead']
      exact (hd hstop hinner _ hsame trivial).bind_pure (takes_pure _)

omit hstop hd in
theorem start_arms {opener : Token} {arms : List Arm}
    (h : nestedTo depth _ (.arms opener) before taken ahead arms) (ahead' : List Token) :
    taken = [] ∨ startsArgument (firstKind (taken ++ ahead')) := by
  cases depth with
  | zero => exact h.elim
  | succ depth =>
    cases h with
    | none => exact .inl rfl
    | some harms =>
      exact .inr (harms.start (fun ahead => startsArgument (firstKind ahead)) startsArgument_arm _)

theorem derived_selection {statement : Statement}
    (h : SelectionAt (nestedTo depth) before taken ahead statement) (hsame : Alike ahead ahead') :
    (selection (enterTo limit depth')).Takes stop before' taken ahead' statement := by
  obtain @⟨_, keyword, opener, closer, tokens, leading, others, _, subject, arms, -, hopener,
    hcloser, hleading, hsubject, harms⟩ := h
  have hnewline : firstKind (others ++ [closer] ++ ahead') ≠ .newline := by
    rw [List.append_assoc]
    obtain rfl | hstart := start_arms harms ([closer] ++ ahead')
    · simp [hcloser]
    · intro hk
      rw [hk] at hstart
      exact absurd hstart (by decide)
  have hbehind : Alike (opener :: (leading ++ others ++ closer :: ahead))
      (opener :: (leading ++ others ++ [closer]) ++ ahead') := by
    rw [List.cons_append, List.append_assoc _ [closer]]
    exact .cons opener ((Alike.cons closer hsame).append (leading ++ others))
  refine (take_takes keyword).bind_cons ((derived_expression hstop _ hd hsubject hbehind
    (by simp [hopener])).bind ((expect_takes hstop hopener).bind_cons ?_))
  rw [List.append_assoc leading]
  refine (skipNewlines_takes hstop hleading hnewline).bind ?_
  refine (hd hstop harms _ (Alike.cons closer hsame) hcloser).bind ?_
  exact (expectClosing_takes hstop (by decide) opener hcloser).bind_pure (takes_pure _)

/-! ### Invocations -/

omit hd in
theorem commaBehind_takes {comma : Token} {newlines : List Token} (hcomma : comma.kind = .comma)
    (hnewlines : Newlines newlines) (hahead : firstKind ahead' ≠ .newline) :
    commaBehind.Takes stop before' (comma :: newlines) ahead' true :=
  (eats_takes hstop hcomma).bind_cons
    ((skipNewlines_takes hstop hnewlines hahead).bind_pure (takes_pure _))

omit hd in
theorem commaBehind_takes_nil (hahead : firstKind ahead' ≠ .comma) :
    commaBehind.Takes stop before' [] ahead' false :=
  (eats_takes_nil hstop hahead).bind_none (takes_pure _)

/-- Arguments in parentheses are read if the invocation ends behind them. -/
theorem derived_parenthesized {arguments : List Argument}
    (h : ParenthesizedAt (nestedTo depth) before taken ahead arguments)
    (hsame : Alike ahead ahead') :
    (parenthesized? (enterTo limit depth')).Takes stop before' taken ahead' (some arguments) := by
  obtain ⟨harguments, hend⟩ := h
  rw [hsame.mem_iff (.inl (by decide))] at hend
  refine (isAt_takes hstop .lParen).bind_nil ?_
  rw [firstKind_callArguments harguments ahead']
  refine attempt_takes ((derived_callArguments hstop before' hd harguments hsame).bind_pure
    ((peekKind_takes hstop).bind_none ?_))
  rw [if_pos (by simpa using hend)]
  exact takes_pure _

omit hd in
theorem parenthesized?_takes_nil (hahead : firstKind ahead' ≠ .lParen) :
    (parenthesized? (enterTo limit depth')).Takes stop before' [] ahead' none := by
  refine (isAt_takes hstop .lParen).bind_none ?_
  rw [beq_eq_false_iff_ne.mpr hahead]
  exact takes_pure _

/-- Arguments without parentheses are not read as arguments in parentheses. -/
theorem parenthesized?_takes_none {arguments : List Argument}
    (h : BareAt (nestedTo depth) before taken ahead arguments) (hsame : Alike ahead ahead') :
    (parenthesized? (enterTo limit depth')).Takes stop before' [] (taken ++ ahead') none := by
  by_cases hparen : firstKind (taken ++ ahead') = .lParen
  swap
  · exact parenthesized?_takes_nil hstop before' hparen
  obtain ⟨harguments, hend⟩ := h
  -- the parentheses are those of the first argument, and the invocation does not end behind them
  obtain ⟨parens, behind, found, inner, hsplit, hcall, hsame, hbehind⟩ :
      ∃ parens behind found inner, taken ++ ahead' = parens ++ found ∧
        CallArgumentsAt (nestedTo depth) before parens behind [.positional inner] ∧
        Alike behind found ∧ firstKind found ∉ invocationClosers := by
    cases harguments with
    | @last _ tokens gap _ argument hitem hgap =>
      rw [List.append_assoc] at hparen ⊢
      obtain ⟨parens, others, inner, rfl, hcall, hrest⟩ := callArguments_of_argument hitem hparen
      refine ⟨parens, _, others ++ (gap ++ ahead'), inner, by simp, hcall,
        (hsame.append gap).append others, ?_⟩
      cases hgap
      obtain ⟨rfl, span, rfl⟩ | ⟨hne, hrest⟩ := hrest
      · exact fun hmem => hend inner span rfl ((hsame.mem_iff (.inl (by decide))).mpr hmem)
      · rwa [firstKind_append_of_ne_nil hne]
    | @more _ tokens gap rest _ argument _ hitem hgap _ =>
      rw [List.append_assoc, List.append_assoc] at hparen ⊢
      obtain ⟨parens, others, inner, rfl, hcall, hrest⟩ := callArguments_of_argument hitem hparen
      refine ⟨parens, _, others ++ (gap ++ (rest ++ ahead')), inner, by simp, hcall, ?_, ?_⟩
      · exact ((hsame.append rest).append gap).append others
      · cases hgap with
        | present hcomma _ =>
          obtain ⟨rfl, -⟩ | ⟨hne, hrest⟩ := hrest
          · simp [hcomma, invocationClosers]
          · rwa [firstKind_append_of_ne_nil hne]
  have hrun : (do
      let arguments ← callArguments (enterTo limit depth')
      return if invocationClosers.contains (← peekKind) then some arguments else none :
        Parse (Option (List Argument))).Takes stop before' parens found none := by
    refine (derived_callArguments hstop before' hd hcall hsame).bind_pure
      ((peekKind_takes hstop).bind_none ?_)
    rw [if_neg (by simpa using hbehind)]
    exact takes_pure _
  refine (isAt_takes hstop .lParen).bind_none ?_
  rw [beq_iff_eq.mpr hparen, hsplit]
  exact attempt_takes_none hrun

/-- The kinds of the tokens that may come behind arguments without parentheses. -/
def argumentClosers : List TokenKind := .lBrace :: statementClosers

omit hstop hd in
theorem mem_expressionClosers_of_argumentClosers {kind : TokenKind} (h : kind ∈ argumentClosers) :
    kind ∈ expressionClosers := by
  obtain rfl | h := List.mem_cons.mp h
  · decide
  · exact mem_expressionClosers h

/-- Arguments without parentheses around them are read. -/
theorem derived_bare {arguments : List Argument}
    (h : BareAt (nestedTo depth) before taken ahead arguments) (hsame : Alike ahead ahead')
    (hahead : firstKind ahead' ∈ argumentClosers) :
    (bareArguments (enterTo limit depth')).Takes stop before' taken ahead' arguments := by
  have hhead : ∀ {least before taken ahead value},
      nestedTo depth _ (.expression least) before taken ahead value →
        Unassigning taken ∧ startsArgument (firstKind taken) :=
    fun h => ⟨unassigning_expression h, startsArgument_expression h⟩
  obtain ⟨harguments, -⟩ := h
  refine series_takes (harguments.takes (fun ahead => firstKind ahead ∈ expressionClosers)
    (fun ahead => startsArgument (firstKind ahead)) (fun ahead => firstKind ahead ∈ argumentClosers)
    ?_ (startsArgument_argument hhead) ?_ ?_ before' hsame hahead)
  · intro before taken ahead argument hargument before' ahead' hsame hahead
    exact derived_argument hstop before' hd hhead hargument hsame hahead
  · intro before gap ahead hgap before' ahead' hstart
    cases hgap with
    | present hcomma hnewlines =>
      refine ⟨commaBehind_takes hstop before' hcomma hnewlines fun hk => ?_, by
        simp [hcomma, expressionClosers]⟩
      rw [hk] at hstart
      exact absurd hstart (by decide)
  · intro before gap ahead hgap before' ahead' _ hahead
    cases hgap
    refine ⟨commaBehind_takes_nil hstop before' fun hk => ?_,
      mem_expressionClosers_of_argumentClosers hahead⟩
    rw [hk] at hahead
    exact absurd hahead (by decide)

omit hd in
/-- Where statements stand in braces, the name of an operator has no arguments. -/
theorem operatorArguments_takes_nil {block : Option Pipeline × List Argument}
    (h : OperatorBlockAt (nestedTo depth) before taken ahead block)
    (hahead : firstKind ahead' ∈ statementClosers) :
    (operatorArguments (enterTo limit depth')).Takes stop before' [] (taken ++ ahead')
      ([], false) := by
  obtain rfl | hopener := firstKind_operatorBlock h
  · have hparen : firstKind ahead' ≠ .lParen := ne_of_mem_statementClosers hahead (by decide)
    have hnone : startsArgument (firstKind ahead') = false := by
      simp only [statementClosers, List.mem_cons, List.not_mem_nil, or_false] at hahead
      obtain hk | hk | hk | hk := hahead <;> (rw [hk]; rfl)
    refine (parenthesized?_takes_nil hstop before' hparen).bind_none
      ((peekKind_takes hstop).bind_none ?_)
    rw [hnone]
    exact takes_pure _
  · have hbrace := hopener ahead'
    have hparen : firstKind (taken ++ ahead') ≠ .lParen := by rw [hbrace]; decide
    refine (parenthesized?_takes_nil hstop before' hparen).bind_none
      ((peekKind_takes hstop).bind_none ?_)
    rw [hbrace]
    have hfails : (attempt (some <$> bareArguments (enterTo limit depth'))).Takes stop before' []
        (taken ++ ahead') none := by
      rw [Takes, List.append_nil, List.nil_append]
      refine attempt_eq_none fun arguments behind hrun => ?_
      obtain ⟨found, hbare, -⟩ := map_ok hrun
      obtain ⟨brace, rest, hsplit, hk⟩ := exists_cons_of_firstKind hbrace (by decide)
      rw [hsplit] at hbare
      refine not_recordAhead_of_operatorBlock h ?_ hsplit
        (recordAhead_of_bareArguments hstop hk hbare)
      rintro rfl
      exact absurd (hopener []) (by decide)
    exact hfails.bind_none (takes_pure _)

/-- The arguments behind the name of an operator are read. -/
theorem derived_operatorArguments {others : List Token} {before₂ : List Token}
    {found : List Argument × Bool} {block : Option Pipeline × List Argument}
    (h : OperatorArgumentsAt (nestedTo depth) before taken (others ++ ahead) found)
    (hblock : OperatorBlockAt (nestedTo depth) before₂ others ahead block)
    (hsame : Alike ahead ahead') (hahead : firstKind ahead' ∈ statementClosers) :
    (operatorArguments (enterTo limit depth')).Takes stop before' taken (others ++ ahead')
      found := by
  have hclosers : firstKind (others ++ ahead') ∈ argumentClosers := by
    obtain rfl | hbrace := firstKind_operatorBlock hblock
    · exact List.mem_cons_of_mem _ hahead
    · simp [hbrace ahead', argumentClosers]
  cases h with
  | parenthesized harguments =>
    exact (derived_parenthesized hstop before' hd harguments (hsame.append others)).bind_pure
      (takes_pure _)
  | none _ => exact operatorArguments_takes_nil hstop before' hblock hahead
  | bare harguments =>
    refine (parenthesized?_takes_none hstop before' hd harguments (hsame.append others)).bind_nil
      ((peekKind_takes hstop).bind_nil ?_)
    rename_i arguments
    have hbare := derived_bare hstop before' hd harguments (hsame.append others) hclosers
    rw [startsArgument_bare harguments (others ++ ahead')]
    by_cases hbrace : firstKind (taken ++ (others ++ ahead')) = .lBrace
    · rw [hbrace]
      have hrun : (attempt (some <$> bareArguments (enterTo limit depth'))).Takes stop before' taken
          (others ++ ahead') (some arguments) :=
        attempt_takes (map_takes hbare some)
      exact hrun.bind_pure (takes_pure _)
    · rw [beq_eq_false_iff_ne.mpr hbrace]
      exact hbare.bind_pure (takes_pure _)

/-- The statements in braces are read. -/
theorem derived_braced {β : Type} {next : Pipeline → Token → Parse β} {b : β}
    {opener closer : Token} {leading others rest : List Token} {body : Pipeline}
    (hcloser : closer.kind = .rBrace) (hleading : Newlines leading)
    (hbody : nestedTo depth _ (.pipeline opener) before taken rest body)
    (hsame : Alike rest (closer :: (others ++ ahead')))
    (hnext : (next body closer).Takes stop (before' ++ leading ++ taken ++ [closer]) others
      ahead' b) :
    (do
      skipNewlines
      let body ← enterTo limit depth' _ (.pipeline opener)
      let closer ← expectClosing .rBrace opener
      next body closer : Parse β).Takes stop before' (leading ++ taken ++ closer :: others)
        ahead' b := by
  have hnewline : firstKind (taken ++ closer :: others ++ ahead') ≠ .newline := by
    have hfirst := firstKind_pipeline hbody (closer :: others ++ ahead')
    intro hk
    rw [List.append_assoc] at hk
    rw [hk] at hfirst
    exact absurd hfirst (by decide)
  rw [List.append_assoc]
  exact (skipNewlines_takes hstop hleading hnewline).bind ((hd hstop hbody _ hsame hcloser).bind
    ((expectClosing_takes hstop (by decide) opener hcloser).bind_cons hnext))

/-- The block of an operator is read, and the arguments behind it. -/
theorem derived_operatorBlock {found : Option Pipeline × List Argument}
    (h : OperatorBlockAt (nestedTo depth) before taken ahead found) (hsame : Alike ahead ahead')
    (hahead : firstKind ahead' ∈ statementClosers) :
    (operatorBlock (enterTo limit depth')).Takes stop before' taken ahead' found := by
  cases h with
  | none hbrace =>
    refine (isAt_takes hstop .lBrace).bind_none ?_
    rw [beq_eq_false_iff_ne.mpr (ne_of_mem_statementClosers hahead (by decide))]
    exact takes_pure _
  | @alone _ opener closer leading tokens _ body hopener hcloser hleading hbody hcomma =>
    have hnone : firstKind ahead' ≠ .comma :=
      fun hk => hcomma ((hsame.first_iff (by decide)).mpr hk)
    refine (isAt_takes hstop .lBrace).bind_nil ?_
    rw [List.cons_append, firstKind_cons, hopener]
    refine (take_takes opener).bind_cons
      (derived_braced hstop _ hd hcloser hleading hbody (Alike.cons closer hsame) ?_)
    exact (commaBehind_takes_nil hstop _ hnone).bind_none (takes_pure _)
  | @parenthesized _ opener closer comma leading tokens newlines others _ body _ hopener hcloser
      hcomma hleading hnewlines hbody harguments =>
    have hbehind : Alike (newlines ++ others ++ ahead) (newlines ++ others ++ ahead') :=
      hsame.append (newlines ++ others)
    have hnewline : firstKind (others ++ ahead') ≠ .newline := by
      obtain ⟨harguments, -⟩ := harguments
      rw [firstKind_callArguments harguments]
      decide
    refine (isAt_takes hstop .lBrace).bind_nil ?_
    rw [List.cons_append, firstKind_cons, hopener]
    refine (take_takes opener).bind_cons (derived_braced hstop _ hd hcloser hleading hbody
      (.cons closer (.cons comma hbehind)) ?_)
    refine Takes.bind (commaBehind_takes hstop _ hcomma hnewlines hnewline) ?_
    exact (derived_parenthesized hstop _ hd harguments hsame).bind_pure (takes_pure _)
  | @bare _ opener closer comma leading tokens newlines others _ body _ hopener hcloser hcomma
      hleading hnewlines hbody harguments =>
    have hbehind : Alike (newlines ++ others ++ ahead) (newlines ++ others ++ ahead') :=
      hsame.append (newlines ++ others)
    have hnewline : firstKind (others ++ ahead') ≠ .newline := by
      intro hk
      have hstart := startsArgument_bare harguments ahead'
      rw [hk] at hstart
      exact absurd hstart (by decide)
    refine (isAt_takes hstop .lBrace).bind_nil ?_
    rw [List.cons_append, firstKind_cons, hopener]
    refine (take_takes opener).bind_cons (derived_braced hstop _ hd hcloser hleading hbody
      (.cons closer (.cons comma hbehind)) ?_)
    refine Takes.bind (commaBehind_takes hstop _ hcomma hnewlines hnewline) ?_
    refine (parenthesized?_takes_none hstop _ hd harguments hsame).bind_nil ?_
    exact (derived_bare hstop _ hd harguments hsame (List.mem_cons_of_mem _ hahead)).bind_pure
      (takes_pure _)

/-- An invocation of an operator is read. -/
theorem derived_invocation {statement : Statement}
    (h : InvocationAt (nestedTo depth) before taken ahead statement) (hsame : Alike ahead ahead')
    (hahead : firstKind ahead' ∈ statementClosers) :
    (invocation (enterTo limit depth')).Takes stop before' taken ahead' statement := by
  obtain @⟨_, name, tokens, others, _, operator, arguments, parenthesized, block, trailing, hname,
    harguments, hblock⟩ := h
  have hfollows := followsName harguments hblock hahead
  have hne : name ≠ [] := hname.1.ne_nil
  have hend : lastSpan.Takes stop (before' ++ name ++ tokens ++ others) [] ahead'
      (endOf (name ++ tokens ++ others)) := by
    rw [List.append_assoc before', List.append_assoc before']
    exact lastSpan_takes_endOf ahead' (by simp [hne])
  rw [List.append_assoc name]
  refine (derived_entity hstop before' hname ?_).bind
    ((derived_operatorArguments hstop _ hd harguments hblock hsame hahead).bind
      ((derived_operatorBlock hstop _ hd hblock hsame hahead).bind_pure ?_))
  · rw [List.append_assoc]
    exact hfollows.ne (by decide)
  · rw [List.append_assoc name] at hend
    exact hend.bind_none (takes_pure _)

/-! ### Statements -/

omit hd in
/-- The name of an operator is not read as what is assigned to. -/
theorem assignment?_takes_none {enter : Enter} {name tokens : List Token} {operator : Entity}
    (h : EntityAt before name ahead operator) (hfollows : FollowsName (firstKind tokens)) :
    (assignment? enter).Takes stop before' [] (name ++ tokens) none := by
  obtain ⟨first, rest, rfl, hfirst, hother⟩ : ∃ first rest, name = first :: rest ∧
      first.kind = .identifier ∧
        firstKind (rest ++ tokens) ∉ [TokenKind.question, .dot, .assign] := by
    obtain ⟨hpath, -⟩ := h
    generalize operator.segments = names at hpath
    cases hpath with
    | one hname =>
      refine ⟨_, [], rfl, hname, fun hmem => ?_⟩
      simp only [List.mem_cons, List.not_mem_nil, or_false] at hmem
      obtain hk | hk | hk := hmem <;> exact hfollows.ne (by decide) hk
    | more hname hseparator _ => exact ⟨_, _, rfl, hname, by simp [hseparator]⟩
  have hselector : selector?.Takes stop before' [first] (rest ++ tokens)
      (some (.field ⟨false, [⟨identifierOf first, false⟩], first.span.through (endOf [first])⟩)) :=
    derived_selector hstop before' (.path (.one (.plain hfirst)))
      fun hmem => hother (List.mem_append_left [TokenKind.assign] hmem)
  have hsign : firstKind (rest ++ tokens) ≠ .assign := fun hk => hother (by simp [hk])
  show (assignment? enter).Takes stop before' [] ([first] ++ (rest ++ tokens)) none
  refine Takes.bind_none (commit_takes_none ?_) (takes_pure _)
  exact hselector.bind_pure ((eats_takes_nil hstop hsign).bind_none (takes_pure _))

/-- A statement is read. -/
theorem derived_statement {found : Statement}
    (h : StatementAt (nestedTo depth) before taken ahead found) (hsame : Alike ahead ahead')
    (hahead : firstKind ahead' ∈ statementClosers) :
    (statement (enterTo limit depth')).TakesSome stop before' taken ahead' found := by
  have hquestion : firstKind ahead' ≠ .question := ne_of_mem_statementClosers hahead (by decide)
  refine ⟨(peekKind_takes hstop).bind_nil ?_, h.ne_nil⟩
  cases h with
  | letBinding hlet =>
    have hrun := derived_letBinding hstop before' hd hlet hsame hquestion
    obtain ⟨hkeyword, -, -, -⟩ := hlet
    rw [List.cons_append, firstKind_cons, hkeyword]
    exact hrun
  | conditional hinner =>
    have hrun := derived_conditional hstop before' hd hinner hsame
    have hfirst : firstKind (taken ++ ahead') = .kwIf := by
      cases hinner with
      | absent hkeyword _ _ _ | conditional hkeyword _ _ _ _ | block hkeyword _ _ _ _ =>
        exact hkeyword
    rw [hfirst]
    exact hrun.bind_pure (takes_pure _)
  | selection hselection =>
    have hrun := derived_selection hstop before' hd hselection hsame
    obtain ⟨hkeyword, -, -, -, -, -⟩ := hselection
    rw [List.cons_append, firstKind_cons, hkeyword]
    exact hrun
  | @assignment _ _ _ target value hassignment =>
    have hstatement : (assignmentStatement? (enterTo limit depth')).Takes stop before' taken ahead'
        (some (.assignment target value (target.span.through value.span))) :=
      (derived_assignment hstop before' hd hassignment hsame hquestion).bind_pure (takes_pure _)
    have hrun : (assignmentOrInvocation (enterTo limit depth')).Takes stop before' taken ahead'
        (.assignment target value (target.span.through value.span)) :=
      hstatement.bind_pure (takes_pure _)
    obtain ⟨htarget, -, -⟩ := hassignment
    have hfirst := firstKind_target htarget
    simp only [List.mem_cons, List.not_mem_nil, or_false] at hfirst
    rw [List.append_assoc]
    obtain hk | hk | hk := hfirst _ <;> (rw [hk]; exact hrun)
  | invocation hinvocation =>
    have hrun := derived_invocation hstop before' hd hinvocation hsame hahead
    obtain @⟨_, name, tokens, others, _, operator, arguments, parenthesized, block, trailing, hname,
      harguments, hblock⟩ := hinvocation
    have hnone : (assignmentStatement? (enterTo limit depth')).Takes stop before' []
        (name ++ (tokens ++ (others ++ ahead'))) none :=
      (assignment?_takes_none hstop before' hname (followsName harguments hblock hahead)).bind_none
        (takes_pure _)
    have hfirst : firstKind (name ++ (tokens ++ (others ++ ahead'))) = .identifier :=
      hname.1.firstKind _
    rw [List.append_assoc, List.append_assoc, hfirst]
    rw [← List.append_assoc tokens, ← List.append_assoc, ← List.append_assoc] at hnone hfirst
    refine hnone.bind_nil ((isAt_takes hstop .identifier).bind_nil ?_)
    rw [hfirst]
    exact hrun

omit hd in
theorem anotherStatement_takes {closer : TokenKind}
    (htaken : ∀ token ∈ taken, token.kind ∈ [TokenKind.newline, .pipe]) (hsome : taken ≠ [])
    (hahead : firstKind ahead' ∉ [TokenKind.newline, .pipe]) (hother : firstKind ahead' ≠ closer) :
    (anotherStatement closer).Takes stop before' taken ahead' true := by
  refine (skip_takes hstop htaken hahead).bind_pure
    ((isAt_takes hstop closer).bind_none ?_)
  rw [beq_eq_false_iff_ne.mpr hother, if_neg (by simp), if_pos (by simpa)]
  exact takes_pure _

omit hd in
theorem anotherStatement_takes_last {closer : TokenKind}
    (htaken : ∀ token ∈ taken, token.kind ∈ [TokenKind.newline, .pipe])
    (hcloser : closer ∉ [TokenKind.newline, .pipe]) (hahead : firstKind ahead' = closer) :
    (anotherStatement closer).Takes stop before' taken ahead' false := by
  refine (skip_takes hstop htaken (by rwa [hahead])).bind_pure
    ((isAt_takes hstop closer).bind_none ?_)
  rw [beq_iff_eq.mpr hahead]
  exact takes_pure _

omit hstop hd in
theorem closing_takes {α : Type} {opener : Token} {rule : Parse α} {found : α}
    (h : rule.Takes stop before taken ahead found) :
    (closing opener rule).Takes stop before taken ahead found := by
  simp only [Takes, EStateM.run, closing] at h ⊢
  rw [h]

/-- Statements are read one after another, up to what closes them. -/
theorem derived_statements {closer : TokenKind} (hcloser : closer ∈ [TokenKind.rBrace, .eof])
    {statements : List Statement}
    (h : Series (StatementAt (nestedTo depth)) (Separator closer) before taken ahead statements)
    (hsame : Alike ahead ahead') (hahead : firstKind ahead' = closer) :
    Series ((statement (enterTo limit depth')).TakesSome stop)
      ((anotherStatement closer).Takes stop)
      before' taken ahead' statements := by
  have hends : closer ∈ statementClosers := List.mem_append_right [TokenKind.newline, .pipe] hcloser
  have hother : closer ∉ [TokenKind.newline, .pipe] := by
    simp only [List.mem_cons, List.not_mem_nil, or_false] at hcloser
    obtain rfl | rfl := hcloser <;> decide
  refine h.takes (fun ahead => firstKind ahead ∈ statementClosers)
    (fun ahead => firstKind ahead ∈ statementOpeners) (fun ahead => firstKind ahead = closer)
    (fun h before' _ hsame hahead => derived_statement hstop before' hd h hsame hahead)
    firstKind_statement ?_ ?_ before' hsame hahead
  · intro before gap ahead hgap before' ahead' hahead
    have hfollow : gap ≠ [] → firstKind (gap ++ ahead') ∈ statementClosers :=
      fun hsome => firstKind_separator hgap fun hnil => absurd hnil hsome
    have hnone := not_closer_of_opener hahead
    cases hgap with
    | more htaken hsome =>
      refine ⟨anotherStatement_takes hstop before' htaken hsome (fun hmem => hnone ?_) ?_,
        hfollow hsome⟩
      · exact List.mem_append_left [.rBrace, .eof] hmem
      · exact fun hk => hnone (by rwa [hk])
  · intro before gap ahead hgap before' ahead' _ hahead
    refine ⟨?_, firstKind_separator hgap fun _ => by rwa [hahead]⟩
    cases hgap with
    | last htaken _ => exact anotherStatement_takes_last hstop before' htaken hother hahead

/-- Statements in braces are read. -/
theorem derived_pipeline {opener : Token} {body : Pipeline}
    (h : PipelineAt (nestedTo depth) before taken ahead body) (hsame : Alike ahead ahead')
    (hahead : firstKind ahead' = .rBrace) :
    (pipelineBehind (enterTo limit depth') opener).Takes stop before' taken ahead' body := by
  obtain @⟨_, _, _, statements, span, hstatements, hspan⟩ := h
  have hseries := derived_statements hstop before' hd (by decide) hstatements hsame hahead
  have hfirst : firstKind (taken ++ ahead') ≠ .eof := by
    have hstart := hstatements.start (fun ahead => firstKind ahead ∈ statementOpeners)
      firstKind_statement ahead'
    intro hk
    rw [hk] at hstart
    exact absurd hstart (by decide)
  refine (isAt_takes hstop .eof).bind_nil ?_
  rw [beq_eq_false_iff_ne.mpr hfirst]
  refine closing_takes ((series_takes hseries).bind_pure ?_)
  rw [hspan]
  exact takes_pure _

/-- A block is read. -/
theorem derived_block {found : Block} (h : BlockAt (nestedTo depth) before taken ahead found)
    (hsame : Alike ahead ahead') :
    (block (enterTo limit depth')).Takes stop before' taken ahead' found := by
  cases h with
  | @empty _ opener closer leading _ hopener hcloser hleading =>
    refine (expect_takes hstop hopener).bind_cons ((skipNewlines_takes hstop hleading ?_).bind ?_)
    · simp [hcloser]
    · refine (isAt_takes hstop .rBrace).bind_nil ?_
      rw [List.singleton_append, firstKind_cons, hcloser]
      exact (takes_pure _).bind_nil
        ((expectClosing_takes hstop (by decide) opener hcloser).bind_pure (takes_pure _))
  | @body _ opener closer leading tokens _ body hopener hcloser hleading hbody =>
    have hstart : firstKind (tokens ++ [closer] ++ ahead') ∈ statementOpeners := by
      obtain ⟨hstatements, -⟩ := hbody
      rw [List.append_assoc]
      exact hstatements.start (fun ahead => firstKind ahead ∈ statementOpeners)
        firstKind_statement _
    have hother :
        ∀ {kind}, kind ∉ statementOpeners → firstKind (tokens ++ [closer] ++ ahead') ≠ kind :=
      fun hkind hk => hkind (hk ▸ hstart)
    have hrun : (pipelineBehind (enterTo limit depth') opener).Takes stop _ tokens
        ([closer] ++ ahead') body :=
      derived_pipeline hstop (before' ++ [opener] ++ leading) hd hbody (Alike.cons closer hsame)
        hcloser
    refine (expect_takes hstop hopener).bind_cons ?_
    rw [List.append_assoc]
    refine (skipNewlines_takes hstop hleading (hother (by decide))).bind
      ((isAt_takes hstop .rBrace).bind_nil ?_)
    rw [beq_eq_false_iff_ne.mpr (hother (by decide))]
    refine (map_takes hrun some).bind ?_
    exact (expectClosing_takes hstop (by decide) opener hcloser).bind_pure (takes_pure _)

/-! ### Selections -/

theorem derived_pattern {found : Expr} (h : PatternAt (nestedTo depth) before taken ahead found)
    (hsame : Alike ahead ahead') (hahead : firstKind ahead' ≠ .question) :
    (pattern (enterTo limit depth')).TakesSome stop before' taken ahead' found := by
  have hne : taken ≠ [] := by
    rintro rfl
    exact absurd (startsArgument_pattern h []) (by decide)
  refine ⟨(atArrow_takes hstop).bind_nil ?_, hne⟩
  cases h with
  | name harrow hpattern =>
    rw [if_pos (by simpa [ArrowAhead] using (hsame.append taken).arrowAhead.mp harrow)]
    exact (derived_primary hstop before' hd
      (fun h => ⟨unassigning_expression h, startsArgument_expression h⟩) hpattern hsame).1
  | expression harrow hpattern =>
    rw [if_neg]
    · exact derived_expression hstop before' hd hpattern hsame hahead
    · simpa [ArrowAhead] using fun harrow' => harrow ((hsame.append taken).arrowAhead.mpr harrow')

/-- An arm of a selection is read. -/
theorem derived_arm {found : Arm} (h : ArmAt (nestedTo depth) before taken ahead found)
    (hsame : Alike ahead ahead') :
    (arm (enterTo limit depth')).TakesSome stop before' taken ahead' found := by
  refine ⟨?_, h.ne_nil⟩
  obtain @⟨_, arrow, opener, closer, tokens, leading, others, _, patterns, body, harrow, hopener,
    hcloser, hleading, hpatterns, hbody⟩ := h
  have hbehind : Alike (arrow :: opener :: (leading ++ others ++ closer :: ahead))
      (arrow :: opener :: (leading ++ others ++ [closer]) ++ ahead') := by
    rw [List.cons_append, List.cons_append, List.append_assoc _ [closer]]
    exact .cons arrow (.cons opener ((Alike.cons closer hsame).append (leading ++ others)))
  have hseries := hpatterns.takes (fun ahead => firstKind ahead ≠ .question)
    (fun ahead => startsArgument (firstKind ahead)) (fun ahead => firstKind ahead = .fatArrow)
    (fun h before' _ hsame hahead => derived_pattern hstop before' hd h hsame hahead)
    startsArgument_pattern
    (by
      intro before gap ahead hgap before' ahead' hstart
      cases hgap with
      | present hcomma hnewlines =>
        refine ⟨commaBehind_takes hstop before' hcomma hnewlines fun hk => ?_, by simp [hcomma]⟩
        rw [hk] at hstart
        exact absurd hstart (by decide))
    (by
      intro before gap ahead hgap before' ahead' _ hahead
      cases hgap
      exact ⟨commaBehind_takes_nil hstop before' (by rw [hahead]; decide),
        by rw [List.nil_append, hahead]; decide⟩)
    before' hbehind harrow
  refine (series_takes hseries).bind ((expect_takes hstop harrow).bind_cons
    ((expect_takes hstop hopener).bind_cons ?_))
  refine derived_braced hstop _ hd hcloser hleading (by simpa using hbody)
    (Alike.cons closer hsame) ?_
  exact takes_pure _

omit hd in
theorem atArm_takes {opener : Token} (hahead : firstKind ahead' ≠ .eof) :
    (atArm opener).Takes stop before' [] ahead' (firstKind ahead' != .rBrace) := by
  refine (peekKind_takes hstop).bind_none ?_
  cases hk : firstKind ahead' <;> first | exact takes_pure _ | exact absurd hk hahead

omit hd in
theorem anotherArm_takes {opener : Token}
    (htaken : ∀ token ∈ taken, token.kind ∈ [TokenKind.newline, .comma])
    (hahead : firstKind ahead' ∉ [TokenKind.newline, .comma]) (hend : firstKind ahead' ≠ .eof) :
    (anotherArm opener).Takes stop before' taken ahead' (firstKind ahead' != .rBrace) :=
  (skip_takes hstop htaken hahead).bind_pure (atArm_takes hstop _ hend)

theorem derived_arms {opener : Token} {found : List Arm}
    (h : ArmsBehindAt (nestedTo depth) before taken ahead found) (hsame : Alike ahead ahead')
    (hahead : firstKind ahead' = .rBrace) :
    (armsBehind (enterTo limit depth') opener).Takes stop before' taken ahead' found := by
  cases h with
  | none =>
    refine (atArm_takes hstop before' (by rw [hahead]; decide)).bind_none ?_
    rw [hahead]
    exact takes_pure _
  | some harms =>
    have hnext : ∀ {tokens : List Token}, startsArgument (firstKind tokens) →
        firstKind tokens ∉ [TokenKind.newline, .comma] ∧ firstKind tokens ≠ .eof ∧
          (firstKind tokens != .rBrace) = true := by
      intro tokens hstart
      refine ⟨fun hmem => ?_, ne_eof_of_startsArgument hstart, bne_iff_ne.mpr fun hk => ?_⟩
      · simp only [List.mem_cons, List.not_mem_nil, or_false] at hmem
        obtain hk | hk := hmem <;> (rw [hk] at hstart; exact absurd hstart (by decide))
      · rw [hk] at hstart
        exact absurd hstart (by decide)
    have hseries : Series ((arm (enterTo limit depth')).TakesSome stop)
        ((anotherArm opener).Takes stop) before' taken ahead' found := by
      refine harms.takes (fun _ => True) (fun ahead => startsArgument (firstKind ahead))
        (fun ahead => firstKind ahead = .rBrace)
        (fun h before' _ hsame _ => derived_arm hstop before' hd h hsame) startsArgument_arm
        ?_ ?_ before' hsame hahead
      · intro before gap ahead hgap before' ahead' hstart
        obtain ⟨hskip, hend, hmore⟩ := hnext hstart
        cases hgap with
        | more htaken =>
          exact ⟨hmore ▸ anotherArm_takes hstop before' htaken hskip hend, trivial⟩
      · intro before gap ahead hgap before' ahead' _ hahead
        cases hgap with
        | last htaken _ =>
          have hskip : firstKind ahead' ∉ [TokenKind.newline, .comma] := by rw [hahead]; decide
          have hend : firstKind ahead' ≠ .eof := by rw [hahead]; decide
          have hnone : (firstKind ahead' != .rBrace) = false := by rw [hahead]; rfl
          exact ⟨hnone ▸ anotherArm_takes hstop before' htaken hskip hend, trivial⟩
    obtain ⟨-, hend, hmore⟩ := hnext
      (harms.start (fun ahead => startsArgument (firstKind ahead)) startsArgument_arm ahead')
    refine (atArm_takes hstop before' hend).bind_nil ?_
    rw [hmore]
    exact series_takes hseries

/-! ### Nested parts -/

theorem derived_rule {α : Type} {goal : Goal α} {found : α}
    (h : goal.At (nestedTo depth) before taken ahead found) (hsame : Alike ahead ahead')
    (hahead : goal.Precedes (firstKind ahead')) :
    (goal.rule (enterTo limit depth')).Takes stop before' taken ahead' found := by
  have hhead : ∀ {least before taken ahead value},
      nestedTo depth _ (.expression least) before taken ahead value →
        Unassigning taken ∧ startsArgument (firstKind taken) :=
    fun h => ⟨unassigning_expression h, startsArgument_expression h⟩
  cases goal with
  | expression least => exact (derived_chain hstop before' hd hhead h hsame hahead).1
  | listItems =>
    exact derived_items hstop before' (by decide)
      (fun h before' _ hsame hahead => derived_listItem hstop before' hd hhead h hsame hahead)
      (start_listItem hhead) h hsame hahead
  | recordItems =>
    exact derived_items hstop before' (by decide)
      (fun h before' _ hsame hahead => derived_recordItem hstop before' hd hhead h hsame hahead)
      start_recordItem h hsame hahead
  | arguments opener => exact derived_argumentsBehind hstop before' hd hhead h hsame
  | conditional => exact derived_conditional hstop before' hd h hsame
  | block => exact derived_block hstop before' hd h hsame
  | arms opener => exact derived_arms hstop before' hd h hsame hahead
  | pipeline opener => exact derived_pipeline hstop before' hd h hsame hahead

end

/-- What is nested no deeper than it may be is read if it has a derivation. -/
theorem readsDerived_enterTo (limit : Nat) {depth depth' : Nat} (h : depth ≤ depth') :
    ReadsDerived (enterTo limit depth') (nestedTo depth) := by
  induction depth generalizing depth' with
  | zero => exact fun _ _ _ _ _ _ _ _ hnone => hnone.elim
  | succ depth ih =>
    obtain ⟨depth', rfl⟩ := Nat.exists_eq_add_one_of_ne_zero (n := depth') (by omega)
    exact fun _ hstop _ _ _ _ _ _ hfound before' _ hsame hahead =>
      derived_rule hstop before' (ih (by omega)) hfound hsame hahead

end Grammar

end PipelineLang
