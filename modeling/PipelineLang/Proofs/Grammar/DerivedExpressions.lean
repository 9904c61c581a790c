import PipelineLang.Proofs.Grammar.Context

/-!
# Derived expressions are read

A derivation says how tokens make up an expression. Here the rules of the grammar are shown to
find it, whatever stands around the tokens.

## Main results

- `Grammar.derived_selector`, `Grammar.derived_entity` — names
- `Grammar.derived_argument`, `Grammar.derived_call` — arguments and calls
- `Grammar.derived_primary`, `Grammar.SuffixAt.takes` — operands and what stands behind them
- `Grammar.ChainAt.takes` — expressions
- `Grammar.ItemsAt.takes` — items between brackets

## Design notes

A derivation does not say that no question mark comes behind a member or an index, since no
rule looks for one; so this is asked of what is ahead.
-/

namespace PipelineLang

open TokenStream Parse Shape

namespace Grammar

variable {stop : Token} (hstop : stop.kind = .eof) {before taken ahead ahead' : List Token}
  (before' : List Token)

include hstop

/-! ### Names -/

theorem derived_path {names : List Identifier} (h : Path taken names)
    (hahead : firstKind ahead' ≠ .moduleSep) :
    (series identifier (eats .moduleSep)).Takes stop before' taken ahead' names := by
  have hnames : Series (identifier.TakesSome stop) ((eats .moduleSep).Takes stop) before' taken
      ahead' names := by
    induction h generalizing before' with
    | @one name hname =>
      rw [← List.append_nil [name]]
      exact .last ⟨identifier_takes hstop hname, by simp⟩ (eats_takes_nil hstop hahead)
    | @more name separator tokens names hname hseparator _ ih =>
      show Series _ _ _ ([name] ++ [separator] ++ tokens) _ _
      exact .more ⟨identifier_takes hstop hname, by simp⟩ (eats_takes hstop hseparator) (ih _)
  exact series_takes hnames

/-- The name of an operator or a function is read. -/
theorem derived_entity {function : Entity} (h : EntityAt before taken ahead function)
    (hahead : firstKind ahead' ≠ .moduleSep) :
    entity.Takes stop before' taken ahead' function := by
  obtain ⟨hpath, -, hspan⟩ := h
  have hend : lastSpan.Takes stop (before' ++ taken) [] ahead' (endOf taken) :=
    lastSpan_takes_endOf ahead' hpath.ne_nil
  refine (derived_path hstop before' hpath hahead).bind_pure (hend.bind_none ?_)
  rw [← hspan]
  exact takes_pure _

theorem derived_step {segment : FieldSegment} (h : Step taken segment)
    (hahead : firstKind ahead' ≠ .question) :
    fieldSegment.TakesSome stop before' taken ahead' segment := by
  cases h with
  | plain hname =>
    exact ⟨(take_takes _).bind_pure ((eats_takes_nil hstop hahead).bind_none (takes_pure _)),
      by simp⟩
  | optional hname hmark =>
    exact ⟨(take_takes _).bind_cons ((eats_takes hstop hmark).bind_pure (takes_pure _)), by simp⟩

omit hstop in
theorem firstKind_steps {segments : List FieldSegment} (h : Steps taken segments)
    (ahead : List Token) : firstKind (taken ++ ahead) = .identifier := by
  have hstep : ∀ {tokens segment}, Step tokens segment → ∀ ahead : List Token,
      firstKind (tokens ++ ahead) = .identifier := by
    intro tokens segment hstep ahead
    cases hstep with
    | plain hname => exact hname
    | optional hname => exact hname
  cases h with
  | one h => exact hstep h ahead
  | more h _ _ =>
    rw [List.append_assoc]
    exact hstep h _

theorem derived_steps {segments : List FieldSegment} (h : Steps taken segments)
    (hahead : firstKind ahead' ∉ [TokenKind.question, .dot]) :
    (series fieldSegment anotherFieldStep).Takes stop before' taken ahead' segments := by
  simp only [List.mem_cons, List.not_mem_nil, or_false, not_or] at hahead
  have hsteps : Series (fieldSegment.TakesSome stop) (anotherFieldStep.Takes stop) before' taken
      ahead' segments := by
    induction h generalizing before' with
    | @one tokens segment hstep =>
      rw [← List.append_nil tokens]
      exact .last (derived_step hstop before' hstep hahead.1)
        (anotherFieldStep_takes_nil hstop hahead.2)
    | @more tokens dot others segment segments hstep hdot hsteps ih =>
      rw [← List.singleton_append, ← List.append_assoc]
      refine .more (derived_step hstop before' hstep (by simp [hdot])) ?_ (ih _)
      exact anotherFieldStep_takes hstop hdot (firstKind_steps hsteps ahead')
  exact series_takes hsteps

theorem derived_fieldPath {segments : List FieldSegment} (h : Steps taken segments)
    (start : Span) (rooted : Bool)
    (hahead : firstKind ahead' ∉ [TokenKind.question, .dot]) :
    (fieldPath start rooted).Takes stop before' taken ahead'
      (.field ⟨rooted, segments, start.through (endOf taken)⟩) :=
  (derived_steps hstop before' h hahead).bind_pure
    ((lastSpan_takes_endOf ahead' h.ne_nil).bind_none (takes_pure _))

/-- What can be assigned to is read, and no longer path is. -/
theorem derived_selector {selector : Selector} (h : SelectorOf taken selector)
    (hahead : firstKind ahead' ∉ [TokenKind.question, .dot]) :
    selector?.Takes stop before' taken ahead' (some selector) := by
  cases h with
  | metadata hsign hname =>
    refine commit_takes ((peek_takes _).bind_nil ?_)
    rw [hsign]
    exact (take_takes _).bind_cons ((eat_takes hstop hname).bind_pure (takes_pure _))
  | root hthis =>
    refine commit_takes ((peek_takes _).bind_nil ?_)
    rw [hthis]
    refine (take_takes _).bind_pure ?_
    exact (anotherFieldStep_takes_nil hstop fun hdot => hahead (by simp [hdot])).bind_none
      (takes_pure _)
  | @rooted this dot steps segments hthis hdot hsteps =>
    refine commit_takes ((peek_takes _).bind_nil ?_)
    have hend : endOf (this :: dot :: steps) = endOf steps := endOf_append [this, dot] hsteps.ne_nil
    rw [hthis, hend]
    refine (take_takes _).bind_cons (Takes.bind_cons (a := true) ?_ ?_)
    · exact anotherFieldStep_takes hstop hdot (firstKind_steps hsteps ahead')
    · exact (derived_fieldPath hstop _ hsteps _ true hahead).bind_pure (takes_pure _)
  | @path first steps segments hsteps =>
    refine commit_takes ((peek_takes _).bind_nil ?_)
    rw [show first.kind = .identifier from firstKind_steps hsteps []]
    exact (derived_fieldPath hstop before' hsteps _ false hahead).bind_pure (takes_pure _)

section

variable {enter : Enter} {nested : Nested} (hd : ReadsDerived enter nested)

include hd

theorem derived_expression {value : Expr}
    (h : nested _ (.expression 0) before taken ahead value) (hsame : Alike ahead ahead')
    (hahead : firstKind ahead' ≠ .question) :
    (expression enter).Takes stop before' taken ahead' value :=
  hd hstop h before' hsame hahead

/-! ### Arguments -/

theorem derived_assignment {found : Selector × Expr}
    (h : AssignmentAt nested before taken ahead found)
    (hsame : Alike ahead ahead') (hahead : firstKind ahead' ≠ .question) :
    (assignment? enter).Takes stop before' taken ahead' (some found) := by
  obtain ⟨htarget, hsign, hvalue⟩ := h
  rename_i target sign tokens selector value
  rw [← List.singleton_append, ← List.append_assoc]
  refine Takes.bind (a := some selector) (commit_takes ?_) ?_
  · refine (derived_selector hstop before' htarget (by simp [hsign])).bind ?_
    exact (eats_takes hstop hsign).bind_pure (takes_pure _)
  · exact (derived_expression hstop _ hd hvalue hsame hahead).bind_pure (takes_pure _)

variable (hhead : ∀ {least before taken ahead value},
  nested _ (.expression least) before taken ahead value →
    Unassigning taken ∧ startsArgument (firstKind taken))

include hhead

omit hstop hd in
theorem startsArgument_argument {argument : Argument}
    (h : ArgumentAt nested before taken ahead argument) (ahead' : List Token) :
    Grammar.startsArgument (firstKind (taken ++ ahead')) := by
  cases h with
  | named hassignment =>
    obtain ⟨htarget, -, -⟩ := hassignment
    cases htarget with
    | metadata hsign _ => simp [hsign, Grammar.startsArgument]
    | root hthis => simp [hthis, Grammar.startsArgument]
    | rooted hthis _ _ => simp [hthis, Grammar.startsArgument]
    | path hsteps =>
      rw [List.append_assoc, firstKind_steps hsteps]
      rfl
  | positional hvalue =>
    have hstart := (hhead hvalue).2
    rwa [firstKind_append (ne_eof_of_startsArgument hstart)]

theorem derived_argument {argument : Argument} (h : ArgumentAt nested before taken ahead argument)
    (hsame : Alike ahead ahead') (hahead : firstKind ahead' ∈ expressionClosers) :
    (Grammar.argument enter).TakesSome stop before' taken ahead' argument := by
  have hquestion : firstKind ahead' ≠ .question :=
    fun hk => by simp [hk, expressionClosers] at hahead
  have hne : taken ≠ [] := by
    rintro rfl
    exact absurd (startsArgument_argument hhead h []) (by decide)
  refine ⟨?_, hne⟩
  cases h with
  | named hassignment =>
    exact (derived_assignment hstop before' hd hassignment hsame hquestion).bind_pure (takes_pure _)
  | positional hvalue =>
    have hnone : (assignment? enter).Takes stop before' [] (taken ++ ahead') none := by
      rw [Takes, List.append_nil]
      exact assignment?_eq_none hstop
        ((hhead hvalue).1 _ (not_signAhead_of_closer hahead))
    exact hnone.bind_nil
      ((derived_expression hstop before' hd hvalue hsame hquestion).bind_pure (takes_pure _))

omit hhead in
theorem derived_callArguments {arguments : List Argument}
    (h : CallArgumentsAt nested before taken ahead arguments) (hsame : Alike ahead ahead') :
    (callArguments enter).Takes stop before' taken ahead' arguments := by
  obtain ⟨hopener, harguments⟩ := h
  exact (expect_takes hstop hopener).bind_cons (hd hstop harguments _ hsame trivial)

omit hstop hd hhead in
theorem firstKind_callArguments {arguments : List Argument}
    (h : CallArgumentsAt nested before taken ahead arguments) (ahead' : List Token) :
    firstKind (taken ++ ahead') = .lParen := by
  obtain ⟨hopener, -⟩ := h
  exact hopener

omit hhead in
theorem derived_call {found : Entity × List Argument} (h : CallAt nested before taken ahead found)
    (hsame : Alike ahead ahead') : (call enter).Takes stop before' taken ahead' found := by
  obtain ⟨hname, harguments⟩ := h
  have hparen := firstKind_callArguments harguments ahead'
  refine (derived_entity hstop before' hname (by simp [hparen])).bind
    ((isAt_takes hstop .lParen).bind_nil ?_)
  rw [beq_iff_eq.mpr hparen, if_pos rfl]
  exact (derived_callArguments hstop _ hd harguments hsame).bind_pure (takes_pure _)

omit hstop hd hhead in
theorem callAhead_of_call {found : Entity × List Argument}
    (h : CallAt nested before taken ahead found) (ahead' : List Token) :
    CallAhead (taken ++ ahead') := by
  obtain ⟨⟨hpath, -⟩, harguments⟩ := h
  rename_i name tokens function arguments
  have hparen := firstKind_callArguments harguments ahead'
  rw [List.append_assoc]
  generalize function.segments = names at hpath
  cases hpath with
  | one hname => exact ⟨hname, .inr hparen⟩
  | more hname hseparator _ => exact ⟨hname, .inl hseparator⟩

/-! ### Format strings -/

omit hstop in
theorem derived_replacement {stop : Token} (hstop : stop.kind = .eof) {value : Expr}
    (h : ReplacementOf nested taken value) :
    (replacement enter).Takes stop [] taken [] value := by
  obtain ⟨hleading, hvalue, htrailing⟩ := h
  rename_i leading tokens trailing
  have hstart := (hhead hvalue).2
  have hfirst : firstKind (tokens ++ trailing ++ []) ≠ .newline := by
    rw [List.append_assoc, firstKind_append (ne_eof_of_startsArgument hstart)]
    intro hk
    rw [hk] at hstart
    exact absurd hstart (by decide)
  have hquestion : firstKind trailing ≠ .question := by
    cases trailing with
    | nil => decide
    | cons token rest => simp [htrailing token (by simp)]
  have hexpression :
      (expression enter).Takes stop ([] ++ leading) tokens (trailing ++ []) value := by
    rw [List.append_nil]
    exact derived_expression hstop _ hd hvalue (alike_refl _) hquestion
  refine (skipNewlines_takes hstop hleading (by simpa using hfirst)).bind (hexpression.bind ?_)
  exact (skipNewlines_takes hstop htrailing (by decide)).bind_pure
    ((isAt_takes hstop .eof).bind_none (takes_pure _))

omit hstop in
theorem derived_segment {stop : Token} {piece : FormatPiece} {found : Segment}
    (h : SegmentOf nested piece found) (ahead : List Token) :
    (segment enter piece).Takes stop before' [] ahead found := by
  cases h with
  | text => exact takes_pure _
  | replacement htokens hvalue =>
    rw [segment, htokens]
    exact (within_takes (derived_replacement hd hhead (kind_stop_ofTokens _) hvalue) rfl).bind_none
      (takes_pure _)

omit hstop in
theorem derived_segments {stop : Token} {pieces : List FormatPiece} {segments : List Segment}
    (h : SegmentsOf nested pieces segments) (ahead : List Token) :
    (pieces.mapM (segment enter)).Takes stop before' [] ahead segments := by
  induction h with
  | nil => exact takes_pure _
  | cons hsegment _ ih =>
    rw [List.mapM_cons]
    exact (derived_segment before' hd hhead hsegment ahead).bind_none (ih.bind_none (takes_pure _))

/-! ### Operands -/

omit hstop hd in
theorem ne_newline_of_expression {least : Nat} {value : Expr}
    (h : nested _ (.expression least) before taken ahead value) (ahead' : List Token) :
    firstKind (taken ++ ahead') ≠ .newline := by
  have hstart := (hhead h).2
  rw [firstKind_append (ne_eof_of_startsArgument hstart)]
  intro hk
  exact absurd hstart (by rw [hk]; decide)

/-- An expression with line ends around it is read up to the bracket that closes it. -/
theorem derived_bracketed {β : Type} {next : Expr → Token → Parse β} {b : β}
    {opener closer : Token} {kind : TokenKind} {leading trailing others : List Token} {value : Expr}
    (hkind : kind ∉ [TokenKind.newline, .question, .eof]) (hcloser : closer.kind = kind)
    (hleading : Newlines leading) (htrailing : Newlines trailing)
    (hvalue : nested _ (.expression 0) before taken (trailing ++ closer :: (others ++ ahead)) value)
    (hsame : Alike ahead ahead')
    (hnext : (next value closer).Takes stop (before' ++ leading ++ taken ++ trailing ++ [closer])
      others ahead' b) :
    (do
      skipNewlines
      let value ← expression enter
      skipNewlines
      let closer ← expectClosing kind opener
      next value closer : Parse β).Takes stop before'
        (leading ++ taken ++ trailing ++ [closer] ++ others) ahead' b := by
  simp only [List.mem_cons, List.not_mem_nil, or_false, not_or] at hkind
  have hquestion : firstKind (trailing ++ ([closer] ++ others) ++ ahead') ≠ .question := by
    cases trailing with
    | nil => simp [hcloser, hkind]
    | cons token rest => simp [htrailing token (by simp)]
  have hbehind : Alike (trailing ++ closer :: (others ++ ahead))
      (trailing ++ ([closer] ++ others) ++ ahead') := by
    rw [List.append_assoc, List.append_assoc]
    exact (Alike.cons closer (hsame.append others)).append trailing
  rw [List.append_assoc, List.append_assoc, List.append_assoc]
  refine (skipNewlines_takes hstop hleading ?_).bind (Takes.bind (a := value) ?_
    ((skipNewlines_takes hstop htrailing (by simp [hcloser, hkind])).bind
      ((expectClosing_takes hstop hkind.2.2 opener hcloser).bind hnext)))
  · rw [List.append_assoc]
    exact ne_newline_of_expression hhead hvalue _
  · exact derived_expression hstop _ hd hvalue hbehind hquestion

/-- An operand without what is written behind it is read. -/
theorem derived_primary {value : Expr} (h : PrimaryAt nested before taken ahead value)
    (hsame : Alike ahead ahead') : (primary enter).TakesSome stop before' taken ahead' value := by
  have hne : taken ≠ [] := by
    rintro rfl
    exact absurd h.startsArgument (by decide)
  refine ⟨?_, hne⟩
  cases h with
  | @literal _ token _ value hvalue =>
    have hrun : literal.Takes stop before' [token] ahead' (.literal value token.span) := by
      refine (peek_takes token).bind_nil ?_
      simp only [hvalue]
      exact (take_takes token).bind_pure (takes_pure _)
    refine (peek_takes token).bind_nil ?_
    cases hk : token.kind <;> first | exact hrun | simp [hk, Literal.ofText?] at hvalue
  | @format _ token _ pieces segments htoken hpieces hsegments =>
    refine (peek_takes token).bind_nil ?_
    rw [htoken]
    refine (peek_takes token).bind_nil ?_
    simp only [hpieces]
    exact (derived_segments before' hd hhead hsegments _).bind_nil
      ((take_takes token).bind_pure (takes_pure _))
  | @call _ _ _ function arguments hcall =>
    have hahead := callAhead_of_call hcall ahead'
    obtain ⟨name, rest, rfl, hname⟩ :
        ∃ name rest, taken = name :: rest ∧ name.kind = .identifier := by
      cases taken with
      | nil => exact absurd rfl hne
      | cons name rest => exact ⟨name, rest, rfl, hahead.1⟩
    refine (peek_takes name).bind_nil ?_
    rw [hname]
    refine (atCall_takes_of_callAhead hstop _ _ hahead).bind_nil ?_
    refine (derived_call hstop before' hd hcall hsame).bind_pure ?_
    exact (lastSpan_takes_endOf ahead' (by simp)).bind_none (takes_pure _)
  | @name _ token _ htoken hcall =>
    refine (peek_takes token).bind_nil ?_
    rw [htoken]
    refine (atCall_takes_of_not_callAhead hstop _ _
      (fun hcall' => hcall ((hsame.append [token]).callAhead.mpr hcall'))).bind_nil ?_
    exact (take_takes token).bind_pure (takes_pure _)
  | @dollar _ token _ htoken | @this _ token _ htoken =>
    refine (peek_takes token).bind_nil ?_
    rw [htoken]
    exact (take_takes token).bind_pure (takes_pure _)
  | @metadata _ sign name _ hsign hname =>
    refine (peek_takes sign).bind_nil ?_
    rw [hsign]
    exact (take_takes sign).bind_cons
      ((identifier_takes hstop hname).bind_pure (takes_pure _))
  | @list _ opener closer tokens _ items hopener hcloser hitems
  | @record _ opener closer tokens _ items hopener hcloser hitems =>
    refine (peek_takes opener).bind_nil ?_
    rw [hopener]
    refine (take_takes opener).bind_cons (Takes.bind ?_
      ((expectClosing_takes hstop (by decide) opener hcloser).bind_pure (takes_pure _)))
    exact hd hstop hitems _ (.cons closer hsame) hcloser
  | @paren _ opener closer leading tokens trailing _ inner hopener hcloser hleading
      htrailing hinner =>
    refine (peek_takes opener).bind_nil ?_
    rw [hopener, ← List.append_nil (leading ++ tokens ++ trailing ++ [closer])]
    exact (take_takes opener).bind_cons (derived_bracketed hstop _ hd hhead (by decide) hcloser
      hleading htrailing hinner hsame (takes_pure _))

/-! ### Suffixes -/

omit hstop hd hhead in
theorem lastSpan_takes_concat (token : Token) :
    lastSpan.Takes stop (before' ++ [token]) [] ahead' token.span := by
  rw [Takes, List.append_nil, List.nil_append]
  exact lastSpan_eq

/-- What is written behind an operand is read. -/
theorem derived_suffix {found : Suffix} (h : SuffixAt nested before taken ahead found)
    (hsame : Alike ahead ahead') (hahead : firstKind ahead' ≠ .question) :
    SuffixTakes enter stop before' taken ahead' found := by
  cases h with
  | @member _ dot name _ hdot hname hcall =>
    refine ⟨⟨(take_takes dot).bind_cons ?_, by simp⟩, by simp [hdot, suffixOpeners]⟩
    rw [hdot]
    refine (atCall_takes_of_not_callAhead hstop _ _
      (fun hcall' => hcall ((hsame.append [name]).callAhead.mpr hcall'))).bind_nil ?_
    refine (identifier_takes hstop hname).bind_pure ((eats_takes_nil hstop hahead).bind_none ?_)
    exact (lastSpan_takes_concat _ name).bind_none (takes_pure _)
  | @memberBehind _ dot name mark _ hdot hname hmark =>
    have hcall : ¬ CallAhead (name :: mark :: ahead') := by
      rintro ⟨-, hsecond⟩
      simp [hmark] at hsecond
    refine ⟨⟨(take_takes dot).bind_cons ?_, by simp⟩, by simp [hdot, suffixOpeners]⟩
    rw [hdot]
    refine (atCall_takes_of_not_callAhead hstop _ _ hcall).bind_nil ?_
    refine (identifier_takes hstop hname).bind_cons ((eats_takes hstop hmark).bind_pure ?_)
    exact (lastSpan_takes_concat _ mark).bind_none (takes_pure _)
  | @memberAhead _ dot name _ hdot hname =>
    refine ⟨⟨(take_takes dot).bind_cons ?_, by simp⟩, by simp [hdot, suffixOpeners]⟩
    rw [hdot]
    exact (identifier_takes hstop hname).bind_pure (takes_pure _)
  | @call _ dot tokens _ function arguments hdot hcall =>
    have hne : tokens ≠ [] := hcall.ne_nil
    have hend : endOf (dot :: tokens) = endOf tokens := endOf_append [dot] hne
    refine ⟨⟨(take_takes dot).bind_cons ?_, by simp⟩, by simp [hdot, suffixOpeners]⟩
    rw [hdot, hend]
    refine (atCall_takes_of_callAhead hstop _ _ (callAhead_of_call hcall ahead')).bind_nil ?_
    refine (derived_call hstop _ hd hcall hsame).bind_pure ?_
    exact (lastSpan_takes_endOf ahead' hne).bind_none (takes_pure _)
  | @index _ opener closer leading tokens trailing _ key hopener hcloser hleading htrailing hkey =>
    refine ⟨⟨(take_takes opener).bind_cons ?_, by simp⟩, by simp [hopener, suffixOpeners]⟩
    rw [hopener, ← List.append_nil (leading ++ tokens ++ trailing ++ [closer])]
    refine derived_bracketed hstop _ hd hhead (by decide) hcloser hleading htrailing hkey hsame ?_
    exact (eats_takes_nil hstop hahead).bind_none
      ((lastSpan_takes_concat _ closer).bind_none (takes_pure _))
  | @optionalIndex _ opener closer mark leading tokens trailing _ key hopener hcloser hmark hleading
      htrailing hkey =>
    have hsplit : leading ++ tokens ++ trailing ++ [closer, mark] =
        leading ++ tokens ++ trailing ++ [closer] ++ [mark] := by simp
    refine ⟨⟨(take_takes opener).bind_cons ?_, by simp⟩, by simp [hopener, suffixOpeners]⟩
    rw [hopener, hsplit]
    refine derived_bracketed hstop _ hd hhead (by decide) hcloser hleading htrailing hkey hsame ?_
    exact (eats_takes hstop hmark).bind_pure
      ((lastSpan_takes_concat _ mark).bind_none (takes_pure _))

/-- An operand with all of its suffixes is read. -/
theorem derived_suffixed {value : Expr} (h : SuffixedAt nested before taken ahead value)
    (hsame : Alike ahead ahead') (hahead : firstKind ahead' ≠ .question) :
    (suffixed enter).TakesSome stop before' taken ahead' value := by
  obtain ⟨hreceiver, hsuffixes, hend⟩ := h
  rename_i tokens others receiver suffixes
  have hend' : firstKind ahead' ∉ suffixOpeners := fun hmem =>
    hend ((hsame.mem_iff (.inr (by decide))).mpr hmem)
  have hmany : Many (SuffixTakes enter stop) (before' ++ tokens) others ahead' suffixes := by
    refine (hsuffixes.takes (fun ahead => firstKind ahead ≠ .question) ?_ _ hsame hahead).1
    intro before taken ahead found hsuffix before' ahead' hsame hahead
    have hread := derived_suffix hstop before' hd hhead hsuffix hsame hahead
    refine ⟨hread, fun hk => ?_⟩
    have hopener := hread.2
    rw [hk] at hopener
    exact absurd hopener (by decide)
  exact SuffixesTake.suffixed hstop ⟨receiver, suffixes, tokens, others, rfl,
    derived_primary hstop before' hd hhead hreceiver (hsame.append others), hmany, rfl⟩ hend'

/-! ### Operators -/

/-- An operand of binary operators is read. -/
theorem derived_operand {value : Expr} (h : OperandAt nested before taken ahead value)
    (hsame : Alike ahead ahead') (hahead : firstKind ahead' ≠ .question) :
    (operand enter).TakesSome stop before' taken ahead' value := by
  cases h with
  | @unary _ opener tokens _ op value hopener hvalue =>
    refine ⟨(peekKind_takes hstop).bind_nil ?_, by simp⟩
    rw [List.cons_append, firstKind_cons, hopener]
    exact (take_takes opener).bind_cons
      ((hd hstop hvalue _ hsame hahead).bind_pure (takes_pure _))
  | @lambda _ parameter arrow leading tokens _ body hparameter harrow hleading hbody =>
    refine ⟨(peekKind_takes hstop).bind_nil ?_, by simp⟩
    rw [List.cons_append, firstKind_cons, hparameter]
    refine (atArrow_takes hstop).bind_nil ?_
    rw [show (_ && _) = true by simp [hparameter, harrow], if_pos rfl]
    refine (take_takes parameter).bind_cons ((take_takes arrow).bind_cons
      ((skipNewlines_takes hstop hleading (ne_newline_of_expression hhead hbody ahead')).bind ?_))
    rw [show before' ++ [parameter] ++ [arrow] ++ leading = before' ++ [parameter, arrow] ++ leading
      by simp]
    exact (hd hstop hbody _ hsame hahead).bind_pure (takes_pure _)
  | plain hop harrow hoperand =>
    have hread := derived_suffixed hstop before' hd hhead hoperand hsame hahead
    refine operand_of_suffixed hstop hread ?_ fun harrow' =>
      harrow ((hsame.append taken).arrowAhead.mpr harrow')
    rwa [firstKind_append_of_ne_nil hread.2] at hop ⊢

/-- An operator and its right operand are read. -/
theorem derived_link {least : Nat} {found : BinaryOp × Expr}
    (h : LinkAt nested least before taken ahead found) (hsame : Alike ahead ahead')
    (hahead : firstKind ahead' ≠ .question) :
    LinkTakes enter least stop before' taken ahead' found := by
  obtain ⟨hsign, hleast, hleading, hright⟩ := h
  rename_i sign leading tokens op right
  have hop := operatorAhead?_of_kinds hsign hleast
  have hne : sign ≠ [] := by
    rintro rfl
    exact BinaryOp.kinds_ne_nil op hsign.symm
  refine ⟨⟨?_, by simp [hne]⟩, ?_⟩
  · have hpeek := peekOperator_takes hstop before' (sign ++ (leading ++ tokens) ++ ahead') least
    rw [List.append_assoc sign, hop, ← List.append_assoc sign] at hpeek
    rw [List.append_assoc]
    refine hpeek.bind_nil ((takeSeveral_takes _ _ sign).bind ?_)
    refine (skipNewlines_takes hstop hleading
      (ne_newline_of_expression hhead hright ahead')).bind ?_
    exact (hd hstop hright _ hsame hahead).bind_pure (takes_pure _)
  · rw [List.append_assoc, List.append_assoc, hop]
    rfl

/-- An expression is read. -/
theorem derived_chain {least : Nat} {value : Expr}
    (h : ChainAt nested least before taken ahead value) (hsame : Alike ahead ahead')
    (hahead : firstKind ahead' ≠ .question) :
    (chain enter least).TakesSome stop before' taken ahead' value := by
  obtain ⟨hfirst, hlinks, hend⟩ := h
  rename_i tokens others first links
  obtain ⟨hmany, hothers⟩ :
      Many (LinkTakes enter least stop) (before' ++ tokens) others ahead' links ∧
      firstKind (others ++ ahead') ≠ .question := by
    refine hlinks.takes (fun ahead => firstKind ahead ≠ .question) ?_ _ hsame hahead
    intro before taken ahead found hlink before' ahead' hsame hahead
    have hread := derived_link hstop before' hd hhead hlink hsame hahead
    refine ⟨hread, fun hk => ?_⟩
    have hop := hread.2
    rw [operatorAhead?, hk] at hop
    simp [binaryOp?] at hop
  exact LinksTake.chain hstop ⟨first, links, tokens, others, rfl,
    derived_operand hstop before' hd hhead hfirst (hsame.append others) hothers, hmany, rfl⟩
    (hsame.operatorAhead? least ▸ hend)

/-! ### Items -/

omit hd hhead in
theorem anotherItem_takes_comma (closer : TokenKind) {comma : Token} {leading trailing : List Token}
    (hleading : Newlines leading) (hcomma : comma.kind = .comma) (htrailing : Newlines trailing)
    (hahead : firstKind ahead' ≠ .newline) :
    (anotherItem closer).Takes stop before' (leading ++ comma :: trailing) ahead'
      (!(firstKind ahead' == closer || firstKind ahead' == .eof)) := by
  refine (skipNewlines_takes hstop hleading (by simp [hcomma])).bind
    ((eats_takes hstop hcomma).bind_cons ?_)
  exact (skipNewlines_takes hstop htrailing hahead).bind_pure ((isAt_takes hstop closer).bind_none
    ((isAt_takes hstop .eof).bind_none (takes_pure _)))

omit hd hhead in
theorem anotherItem_takes_newlines {closer : TokenKind} {newlines : List Token}
    (hnewlines : Newlines newlines) (hahead : firstKind ahead' ∉ [TokenKind.newline, .comma]) :
    (anotherItem closer).Takes stop before' newlines ahead' false := by
  simp only [List.mem_cons, List.not_mem_nil, or_false, not_or] at hahead
  exact (skipNewlines_takes hstop hnewlines hahead.1).bind_pure
    ((eats_takes_nil hstop hahead.2).bind_none (takes_pure _))

omit hd hhead in
/-- Items between brackets are read if each of them is. -/
theorem derived_items {α : Type} {item : Shape α} {rule : Parse α} {closer : TokenKind}
    (hcloser : closer ∈ [TokenKind.rParen, .rBracket, .rBrace])
    (hitem : ∀ {before taken ahead a}, item before taken ahead a →
      ∀ (before' : List Token) {ahead'}, Alike ahead ahead' → firstKind ahead' ∈ expressionClosers →
        rule.TakesSome stop before' taken ahead' a)
    (hstart : ∀ {before taken ahead a}, item before taken ahead a →
      ∀ ahead', firstKind (taken ++ ahead') ∉ itemClosers)
    {found : List α} (h : ItemsAt item before taken ahead found) (hsame : Alike ahead ahead')
    (hahead : firstKind ahead' = closer) :
    (items rule closer).Takes stop before' taken ahead' found := by
  have hends : closer ∈ itemClosers ∧ closer ∈ expressionClosers ∧
      closer ∉ [TokenKind.newline, .comma] := by
    simp only [List.mem_cons, List.not_mem_nil, or_false] at hcloser
    obtain rfl | rfl | rfl := hcloser <;> decide
  have hnewline : closer ≠ .newline := fun hk => hends.2.2 (by simp [hk])
  have hfollow : ∀ {newlines others : List Token}, Newlines newlines →
      firstKind others ∈ expressionClosers →
      firstKind (newlines ++ others) ∈ expressionClosers := by
    intro newlines others hnewlines hothers
    cases newlines with
    | nil => exact hothers
    | cons token rest => simp [hnewlines token (by simp), expressionClosers]
  cases h with
  | none hnewlines =>
    refine (skipNewlines_takes hstop hnewlines (by rwa [hahead])).bind_pure ?_
    refine (isAt_takes hstop closer).bind_none ?_
    rw [beq_iff_eq.mpr hahead]
    exact takes_pure _
  | @some _ newlines tokens _ _ hnewlines hitems =>
    have hseries := hitems.takes (fun ahead => firstKind ahead ∈ expressionClosers)
      (fun ahead => firstKind ahead ∉ itemClosers) (fun ahead => firstKind ahead = closer) hitem
      hstart
      (by
        intro before gap ahead hgap before' ahead' hahead
        cases hgap with
        | present hleading hcomma htrailing =>
          have hnone : ∀ {kind}, kind ∈ itemClosers → firstKind ahead' ≠ kind :=
            fun hkind hk => hahead (hk ▸ hkind)
          have hrun := anotherItem_takes_comma hstop before' closer hleading hcomma
            htrailing (hnone (by decide))
          rw [beq_eq_false_iff_ne.mpr (hnone hends.1), beq_eq_false_iff_ne.mpr (hnone (by decide))]
            at hrun
          refine ⟨hrun, ?_⟩
          rw [List.append_assoc]
          exact hfollow hleading (by simp [hcomma, expressionClosers]))
      (by
        intro before gap ahead hgap before' ahead' _ hahead
        cases hgap with
        | absent hnewlines =>
          exact ⟨anotherItem_takes_newlines hstop before' hnewlines
            (by rw [hahead]; exact hends.2.2),
            hfollow hnewlines (by rw [hahead]; exact hends.2.1)⟩
        | present hleading hcomma htrailing =>
          have hrun := anotherItem_takes_comma hstop before' closer hleading hcomma
            htrailing (by rwa [hahead])
          rw [beq_iff_eq.mpr hahead, Bool.true_or] at hrun
          refine ⟨hrun, ?_⟩
          rw [List.append_assoc]
          exact hfollow hleading (by simp [hcomma, expressionClosers]))
      (before' ++ newlines) hsame hahead
    have hfirst := hitems.start (fun ahead => firstKind ahead ∉ itemClosers) hstart ahead'
    have hnone : ∀ {kind}, kind ∈ itemClosers → firstKind (tokens ++ ahead') ≠ kind :=
      fun hkind hk => hfirst (hk ▸ hkind)
    refine (skipNewlines_takes hstop hnewlines (hnone (by decide))).bind ?_
    refine (isAt_takes hstop closer).bind_nil ?_
    rw [beq_eq_false_iff_ne.mpr (hnone hends.1)]
    refine (isAt_takes hstop .eof).bind_nil ?_
    rw [beq_eq_false_iff_ne.mpr (hnone (by decide))]
    exact series_takes hseries

omit hstop hd in
theorem firstKind_expression {value : Expr}
    (h : nested _ (.expression 0) before taken ahead value) (ahead' : List Token) :
    startsArgument (firstKind (taken ++ ahead')) := by
  have hstart := (hhead h).2
  rwa [firstKind_append (ne_eof_of_startsArgument hstart)]

omit hhead in
theorem derived_spread {ellipsis : Token} {value : Expr} {tokens : List Token}
    (hvalue : nested _ (.expression 0) before tokens ahead value)
    (hsame : Alike ahead ahead') (hahead : firstKind ahead' ≠ .question) :
    (spread enter).Takes stop before' (ellipsis :: tokens) ahead'
      (value, ellipsis.span.through value.span) :=
  (take_takes ellipsis).bind_cons
    ((derived_expression hstop _ hd hvalue hsame hahead).bind_pure (takes_pure _))

theorem derived_listItem {found : ListItem} (h : ListItemAt nested before taken ahead found)
    (hsame : Alike ahead ahead') (hahead : firstKind ahead' ∈ expressionClosers) :
    (listItem enter).TakesSome stop before' taken ahead' found := by
  have hquestion : firstKind ahead' ≠ .question :=
    fun hk => by simp [hk, expressionClosers] at hahead
  cases h with
  | @spread _ ellipsis tokens _ value hellipsis hvalue =>
    refine ⟨(isAt_takes hstop .ellipsis).bind_nil ?_, by simp⟩
    rw [List.cons_append, firstKind_cons, beq_iff_eq.mpr hellipsis, if_pos rfl]
    exact (derived_spread hstop _ hd hvalue hsame hquestion).bind_pure (takes_pure _)
  | item hvalue =>
    have hstart := firstKind_expression hhead hvalue ahead'
    have hellipsis : firstKind (taken ++ ahead') ≠ .ellipsis := by
      intro hk
      exact absurd hstart (by rw [hk]; decide)
    refine ⟨(isAt_takes hstop .ellipsis).bind_nil ?_, fun hnil => ?_⟩
    · rw [beq_eq_false_iff_ne.mpr hellipsis]
      exact (derived_expression hstop _ hd hvalue hsame hquestion).bind_pure (takes_pure _)
    · rw [hnil] at hvalue
      exact absurd (hhead hvalue).2 (by decide)

omit hstop hd in
theorem start_listItem {found : ListItem} (h : ListItemAt nested before taken ahead found)
    (ahead' : List Token) : firstKind (taken ++ ahead') ∉ itemClosers := by
  cases h with
  | spread hellipsis _ => simp [hellipsis, itemClosers]
  | item hvalue =>
    exact notMem_itemClosers_of_startsArgument (firstKind_expression hhead hvalue ahead')

omit hstop hd hhead in
theorem derived_key {name : Token} {key : RecordKey} (h : KeyOf name key) :
    recordKey.Takes stop before' [name] ahead' key := by
  refine (peek_takes name).bind_nil ?_
  cases h with
  | identifier hname =>
    rw [hname]
    exact (take_takes name).bind_pure (takes_pure _)
  | string htoken hvalue =>
    rw [htoken]
    simp only [hvalue]
    exact (take_takes name).bind_pure (takes_pure _)

theorem derived_recordItem {found : RecordItem} (h : RecordItemAt nested before taken ahead found)
    (hsame : Alike ahead ahead') (hahead : firstKind ahead' ∈ expressionClosers) :
    (recordItem enter).TakesSome stop before' taken ahead' found := by
  have hquestion : firstKind ahead' ≠ .question :=
    fun hk => by simp [hk, expressionClosers] at hahead
  cases h with
  | @spread _ ellipsis tokens _ value hellipsis hvalue =>
    refine ⟨(isAt_takes hstop .ellipsis).bind_nil ?_, by simp⟩
    rw [List.cons_append, firstKind_cons, beq_iff_eq.mpr hellipsis, if_pos rfl]
    exact (derived_spread hstop _ hd hvalue hsame hquestion).bind_pure (takes_pure _)
  | @field _ name colon leading tokens _ key value hkey hcolon hleading hvalue =>
    have hellipsis : name.kind ≠ .ellipsis := by
      cases hkey with
      | identifier hname => simp [hname]
      | string htoken _ => simp [htoken]
    refine ⟨(isAt_takes hstop .ellipsis).bind_nil ?_, by simp⟩
    rw [List.cons_append, firstKind_cons, beq_eq_false_iff_ne.mpr hellipsis, if_neg (by simp)]
    refine (peek_takes name).bind_nil ((derived_key _ hkey).bind_cons
      ((expect_takes hstop hcolon).bind_cons ?_))
    refine (skipNewlines_takes hstop hleading
      (ne_newline_of_expression hhead hvalue ahead')).bind ?_
    exact (derived_expression hstop _ hd hvalue hsame hquestion).bind_pure (takes_pure _)

omit hstop hd hhead in
theorem start_recordItem {found : RecordItem} (h : RecordItemAt nested before taken ahead found)
    (ahead' : List Token) : firstKind (taken ++ ahead') ∉ itemClosers := by
  cases h with
  | spread hellipsis _ => simp [hellipsis, itemClosers]
  | field hkey _ _ _ =>
    cases hkey with
    | identifier hname => simp [hname, itemClosers]
    | string htoken _ => simp [htoken, itemClosers]

theorem derived_argumentsBehind {opener : Token} {found : List Argument}
    (h : ArgumentsBehindAt nested before taken ahead found) (hsame : Alike ahead ahead') :
    (argumentsBehind enter opener).Takes stop before' taken ahead' found := by
  obtain ⟨hcloser, harguments⟩ := h
  rename_i tokens closer
  have hitems : (items (Grammar.argument enter) .rParen).Takes stop before' tokens
      (closer :: ahead') found := by
    refine derived_items hstop before' (by simp) ?_ ?_ harguments (.cons closer hsame) hcloser
    · intro before taken ahead found h before' ahead' hsame hahead
      exact derived_argument hstop before' hd hhead h hsame hahead
    · intro before taken ahead found h ahead'
      exact notMem_itemClosers_of_startsArgument (startsArgument_argument hhead h ahead')
  exact hitems.bind
    ((expectClosing_takes hstop (by decide) opener hcloser).bind_pure (takes_pure _))

end

end Grammar

end PipelineLang
