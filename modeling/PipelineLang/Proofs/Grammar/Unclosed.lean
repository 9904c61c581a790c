import PipelineLang.Proofs.Grammar.Enclosures

/-!
# Brackets that are not closed

A bracket is told to be unclosed where the tokens end, or where the tokens of a replacement in a
format string do, and none of the tokens up to there closes it.

## Main definitions

- `Goal.Before`, `Goal.Behind` — the streams that nested parts are read from
- `Enclosure.Enters` — nested parts close the brackets that they open

## Main results

- `Enclosure.enters_enterTo` — nested parts close their brackets, however deep
- `Program.unclosed_of_ofTokens` — what an error about an unclosed bracket says of the tokens

## Design notes

The end of a replacement is no end of the tokens around it, but a block tells of both in the same
way. So `Unclosed.atFormat` is about a bracket that may be closed behind the format string.
-/

namespace PipelineLang

open Parse Grammar

/-- The streams that a nested part is read from. -/
def Goal.Before (around : Enclosure) : {α : Type} → Goal α → TokenStream → Prop
  | _, .arguments opener, stream => opener.kind = .lParen ∧ (around.under opener).Stands stream
  | _, .arms opener, stream => opener.kind = .lBrace ∧ (around.under opener).Stands stream
  | _, .pipeline opener, stream => opener.kind = .lBrace ∧ (around.under opener).Stands stream
  | _, .conditional, stream => around.StandsAt .kwIf stream
  | _, _, stream => around.Stands stream

/-- The streams that a nested part leaves behind. -/
def Goal.Behind (around : Enclosure) : {α : Type} → Goal α → TokenStream → Prop
  | _, .arms opener => (around.under opener).Stands
  | _, .pipeline opener => (around.under opener).Stands
  | _, _ => around.Stands

namespace Enclosure

/-- Nested parts close the brackets that they open. -/
def Enters (enter : Enter) : Prop :=
  ∀ (around : Enclosure) (α : Type) (goal : Goal α),
    Triple around.Fails (goal.Before around) (enter α goal) fun _ => goal.Behind around

variable {α : Type} {around : Enclosure} {opener : Token}

/-! ### Names -/

theorem keeps_identifier : around.Keeps identifier :=
  (keeps_expect rfl).bind fun _ => keeps_return _

theorem keeps_entity : around.Keeps entity :=
  (keeps_identifier.series (keeps_eats rfl)).bind fun _ =>
    keeps_lastSpan.bind fun _ => keeps_return _

theorem triple_atFieldStep : Triple around.Fails around.Stands atFieldStep fun found stream =>
    around.Stands stream ∧
      (found = true → stream.peek.kind = .dot ∧ stream.peekSecond = .identifier) :=
  fun _ hstream => ⟨hstream, fun h => by simpa using h⟩

/-- A dot is only taken before a name. -/
theorem triple_anotherFieldStep :
    Triple around.Fails around.Stands anotherFieldStep fun more stream =>
    around.Stands stream ∧ (more = true → around.StandsAt .identifier stream) := by
  refine triple_atFieldStep.bind fun found => ?_
  cases found with
  | true =>
    refine Triple.bind ?_ fun _ => triple_pure fun _ h => ⟨h.1, fun _ => h⟩
    exact triple_take_first.pre fun _ h => ⟨h.1, by rw [(h.2 rfl).1]; rfl, (h.2 rfl).2⟩
  | false => exact triple_pure fun _ h => ⟨h.1, by simp⟩

theorem triple_fieldPath (start : Span) (rooted : Bool) :
    Triple around.Fails (around.StandsAt .identifier) (fieldPath start rooted)
      fun _ => around.Stands := by
  have hsegment :
      Triple around.Fails (around.StandsAt .identifier) fieldSegment fun _ => around.Stands :=
    (triple_take_kind rfl).bind fun _ => (keeps_eats rfl).bind fun _ => keeps_return _
  have hsegments := hsegment.series triple_anotherFieldStep fun _ h => h.1
  exact (hsegments.post fun _ _ h => h.2).bind fun _ =>
    keeps_lastSpan.bind fun _ => keeps_return _

theorem keeps_selector? : around.Keeps selector? := by
  refine Keeps.commit (triple_peekAt fun first => ?_)
  split
  · next hkind =>
    rw [hkind]
    refine (triple_take_kind rfl).bind fun _ => (keeps_eat rfl).bind fun name => ?_
    cases name <;> exact keeps_return _
  · next hkind =>
    rw [hkind]
    refine (triple_take_kind rfl).bind fun _ => triple_anotherFieldStep.bind fun more => ?_
    cases more with
    | true =>
      exact ((triple_fieldPath _ _).pre fun _ h => h.2 rfl).bind fun _ => keeps_return _
    | false => exact triple_pure fun _ h => h.1
  · next hkind =>
    rw [hkind]
    exact (triple_fieldPath _ _).bind fun _ => keeps_return _
  · exact triple_pure fun _ h => h.1

section

variable {enter : Enter} (he : Enters enter)

include he

/-! ### Expressions -/

theorem keeps_atLeast (least : Nat) : around.Keeps (enter _ (.expression least)) :=
  he around _ (.expression least)

theorem keeps_expression : around.Keeps (expression enter) := keeps_atLeast he 0

theorem keeps_assignment? : around.Keeps (assignment? enter) := by
  refine Triple.bind (Q := fun _ => around.Stands) ?_ fun target => ?_
  · refine Keeps.commit (keeps_selector?.bind fun target => ?_)
    cases target with
    | some target =>
      exact (keeps_eats rfl).bind fun _ => triple_ite (keeps_return _) (keeps_return _)
    | none => exact keeps_return _
  · cases target with
    | some target => exact (keeps_expression he).bind fun _ => keeps_return _
    | none => exact keeps_return _

theorem keeps_argument : around.Keeps (argument enter) := by
  refine (keeps_assignment? he).bind fun found => ?_
  cases found with
  | some _ => exact keeps_return _
  | none => exact (keeps_expression he).bind fun _ => keeps_return _

theorem keeps_callArguments : around.Keeps (callArguments enter) :=
  (triple_expect_opener rfl).bind fun opener => he around _ (.arguments opener)

theorem keeps_replacement : around.Keeps (replacement enter) :=
  keeps_skipNewlines.bind fun _ => (keeps_expression he).bind fun _ =>
    keeps_skipNewlines.bind fun _ => (keeps_isAt _).bind fun _ =>
      triple_ite (keeps_return _) (triple_unexpected _)

/-- What is told of the tokens of a replacement is told at the format string. -/
theorem triple_segment {token : Token} {pieces : List FormatPiece} {piece : FormatPiece}
    (hkind : token.kind = .formatString) (hpieces : token.formatPieces = .ok pieces)
    (hpiece : piece ∈ pieces) :
    Triple around.Fails (around.StandsBefore token) (segment enter piece)
      fun _ => around.StandsBefore token := by
  cases piece with
  | text => exact triple_pure fun _ h => h
  | replacement inner innerSpan span =>
    rw [Grammar.segment]
    split
    · next tokens htokens =>
      have hreplaces : token.Replaces tokens := ⟨hkind, _, _, _, _, hpieces, hpiece, htokens⟩
      exact ((keeps_replacement he).within hreplaces).bind fun _ => triple_pure fun _ h => h
    · exact (triple_fail fun _ => ⟨by simp, by simp⟩).pre fun _ h => h.1

theorem triple_formatString :
    Triple around.Fails (around.StandsAt .formatString) (formatString enter) fun _ =>
      around.Stands := by
  refine Triple.peek fun token => ?_
  split
  · next pieces hpieces =>
    rintro stream ⟨⟨hstream, hkind⟩, rfl⟩
    have hsegment : ∀ piece ∈ pieces, Triple around.Fails (around.StandsBefore stream.peek)
        (segment enter piece) fun _ => around.StandsBefore stream.peek :=
      fun _ hpiece => triple_segment he hkind hpieces hpiece
    refine (triple_mapM hsegment).bind (fun _ => ?_) stream ⟨hstream, rfl⟩
    exact (triple_take.pre fun _ h => ⟨h.1, by rw [h.2, hkind]; rfl⟩).bind
      fun _ => keeps_return _
  · exact (triple_fail fun _ => ⟨by simp, by simp⟩).pre fun _ h => h.1.1

omit he in
theorem triple_literal {kind : TokenKind} (hkind : kind.isPlain) :
    Triple around.Fails (around.StandsAt kind) literal fun _ => around.Stands := by
  refine Triple.peek fun token => ?_
  split
  · exact ((triple_take_kind hkind).pre fun _ h => h.1).bind
      fun _ => keeps_return _
  · exact (triple_fail fun _ => ⟨by simp, by simp⟩).pre fun _ h => h.1.1

omit he in
theorem triple_atCall {P : TokenStream → Prop} : Triple around.Fails P atCall fun _ => P :=
  fun _ h => h

theorem keeps_call : around.Keeps (call enter) :=
  keeps_entity.bind fun _ => (keeps_isAt _).bind fun _ =>
    triple_ite ((keeps_callArguments he).bind fun _ => keeps_return _) (triple_unexpected _)

theorem keeps_primary : around.Keeps (primary enter) := by
  refine triple_peekAt fun token => ?_
  split
  · next hkind =>
    rw [hkind]
    exact triple_formatString he
  · next hkind =>
    rw [hkind]
    refine triple_atCall.bind fun _ => triple_ite ?_ ?_
    · exact (Triple.pre (keeps_call he) fun _ h => h.1).bind fun _ =>
        keeps_lastSpan.bind fun _ => keeps_return _
    · exact (triple_take_kind rfl).bind fun _ => keeps_return _
  · next hkind =>
    rw [hkind]
    exact (triple_take_kind rfl).bind fun _ => keeps_return _
  · next hkind =>
    rw [hkind]
    exact (triple_take_kind rfl).bind fun _ => keeps_return _
  · next hkind =>
    rw [hkind]
    exact (triple_take_kind rfl).bind fun _ => keeps_identifier.bind fun _ => keeps_return _
  · next hkind =>
    rw [hkind]
    exact (triple_take_opener rfl).bind fun opener => Triple.lift fun hopener =>
      (triple_of_under (he _ _ .listItems)).bind fun _ =>
        (triple_expectClosing hopener rfl).bind fun _ => keeps_return _
  · next hkind =>
    rw [hkind]
    exact (triple_take_opener rfl).bind fun opener => Triple.lift fun hopener =>
      (triple_of_under (he _ _ .recordItems)).bind fun _ =>
        (triple_expectClosing hopener rfl).bind fun _ => keeps_return _
  · next hkind =>
    rw [hkind]
    exact (triple_take_opener rfl).bind fun opener => Triple.lift fun hopener =>
      (triple_of_under keeps_skipNewlines).bind fun _ =>
        (triple_of_under (keeps_expression he)).bind fun _ =>
          (triple_of_under keeps_skipNewlines).bind fun _ =>
            (triple_expectClosing hopener rfl).bind fun _ => keeps_return _
  · split
    · next hliteral => exact triple_literal (TokenKind.isPlain_of_isLiteral hliteral)
    · exact (triple_unexpected _).pre fun _ h => h.1

/-- Behind a suffix, the bracket of an index is closed. -/
theorem triple_suffix : Triple around.Fails
    (fun stream => around.Stands stream ∧ suffixOpeners.contains stream.peek.kind) (suffix enter)
    fun _ => around.Stands := by
  have hdot : Triple around.Fails (around.StandsAt .dot) (suffix enter) fun _ => around.Stands := by
    refine (triple_take_eq rfl).bind fun opener => Triple.lift fun hopener => ?_
    rw [hopener]
    refine triple_atCall.bind fun _ => triple_ite ?_ ?_
    · exact (keeps_call he).bind fun _ => keeps_lastSpan.bind fun _ => keeps_return _
    · exact keeps_identifier.bind fun _ => (keeps_eats rfl).bind fun _ =>
        keeps_lastSpan.bind fun _ => keeps_return _
  have hquestion : Triple around.Fails (around.StandsAt .dotQuestion) (suffix enter)
      fun _ => around.Stands := by
    refine (triple_take_eq rfl).bind fun opener => Triple.lift fun hopener => ?_
    rw [hopener]
    exact keeps_identifier.bind fun _ => keeps_return _
  have hindex : Triple around.Fails (around.StandsAt .lBracket) (suffix enter)
      fun _ => around.Stands := by
    refine (triple_take_opener rfl).bind fun opener => Triple.lift fun hopener => ?_
    rw [hopener]
    exact (triple_of_under keeps_skipNewlines).bind fun _ =>
      (triple_of_under (keeps_expression he)).bind fun _ =>
        (triple_of_under keeps_skipNewlines).bind fun _ =>
          (triple_expectClosing hopener rfl).bind fun _ =>
            (keeps_eats rfl).bind fun _ => keeps_lastSpan.bind fun _ => keeps_return _
  rintro stream ⟨hstream, hopener⟩
  simp only [suffixOpeners, List.contains_iff_mem, List.mem_cons, List.not_mem_nil, or_false]
    at hopener
  obtain hkind | hkind | hkind := hopener
  · exact hdot stream ⟨hstream, hkind⟩
  · exact hquestion stream ⟨hstream, hkind⟩
  · exact hindex stream ⟨hstream, hkind⟩

theorem keeps_suffixed : around.Keeps (suffixed enter) := by
  have hagain : Triple around.Fails around.Stands atSuffix fun more stream => around.Stands stream ∧
      (more = true → around.Stands stream ∧ suffixOpeners.contains stream.peek.kind) :=
    fun _ hstream => ⟨hstream, fun hmore => ⟨hstream, hmore⟩⟩
  exact (keeps_primary he).bind fun _ =>
    ((triple_suffix he).whenAhead hagain fun _ h => h.1).bind fun _ => keeps_return _

theorem triple_lambda : Triple around.Fails (fun stream => around.Stands stream ∧
    stream.peek.kind = .identifier ∧ stream.peekSecond = .fatArrow) (lambda enter)
    fun _ => around.Stands := by
  refine (triple_take_first.pre fun _ h => ⟨h.1, by rw [h.2.1]; rfl, h.2.2⟩).bind fun _ => ?_
  exact (triple_take_kind rfl).bind fun _ => keeps_skipNewlines.bind fun _ =>
    (keeps_atLeast he _).bind fun _ => keeps_return _

omit he in
theorem triple_atArrow : Triple around.Fails around.Stands atArrow fun found stream =>
    around.Stands stream ∧
      (found = true → stream.peek.kind = .identifier ∧ stream.peekSecond = .fatArrow) :=
  fun _ hstream => ⟨hstream, fun h => by simpa using h⟩

omit he in
theorem isPlain_of_unaryOp? {kind : TokenKind} {op : UnaryOp} (h : unaryOp? kind = some op) :
    kind.isPlain := by
  cases kind <;> first | rfl | exact absurd h (by simp [unaryOp?])

theorem keeps_operand : around.Keeps (operand enter) := by
  refine Triple.peekKind fun kind => ?_
  split
  · next op hop =>
    exact (triple_take_kind (isPlain_of_unaryOp? hop)).bind fun _ =>
      (keeps_atLeast he _).bind fun _ => keeps_return _
  · refine Triple.pre (triple_atArrow.bind fun found => ?_) fun _ h => h.1
    cases found with
    | true => exact (triple_lambda he).pre fun _ h => ⟨h.1, h.2 rfl⟩
    | false => exact (keeps_suffixed he).pre fun _ h => h.1

omit he in
theorem isPlain_of_binaryOp? {first second : TokenKind} {op : BinaryOp} {width : Nat}
    (h : binaryOp? first second = some (op, width)) :
    first.isPlain ∧ (width = 1 ∨ width = 2 ∧ second = .kwIn) := by
  cases first with
  | kwNot =>
    rw [binaryOp?] at h
    split at h
    · cases h
      exact ⟨rfl, .inr ⟨rfl, ‹_›⟩⟩
    · cases h
  | _ =>
    cases h
    all_goals exact ⟨rfl, .inl rfl⟩

omit he in
/-- The one or two tokens of an operator are no brackets. -/
theorem triple_operator (op : BinaryOp) (width : Nat) : Triple around.Fails
    (fun stream => around.Stands stream ∧
      binaryOp? stream.peek.kind stream.peekSecond = some (op, width))
    (takeSeveral width) fun _ => around.Stands := by
  rintro stream ⟨hstream, hop⟩
  obtain ⟨hplain, rfl | ⟨rfl, hsecond⟩⟩ := isPlain_of_binaryOp? hop
  · exact (triple_take.bind fun _ => keeps_return ()) stream ⟨hstream, hplain⟩
  · exact (triple_take_first.bind fun _ => (triple_take_kind rfl).bind fun _ => keeps_return ())
      stream ⟨hstream, hplain, hsecond⟩

omit he in
theorem triple_peekOperator (least : Nat) : Triple around.Fails around.Stands (peekOperator least)
    fun found stream => around.Stands stream ∧ ∀ op width, found = some (op, width) →
      binaryOp? stream.peek.kind stream.peekSecond = some (op, width) :=
  fun _ hstream => ⟨hstream, fun _ _ h => (Option.filter_eq_some_iff.mp h).1⟩

theorem keeps_link (least : Nat) : around.Keeps (link enter least) := by
  refine (triple_peekOperator least).bind fun found => ?_
  split
  · next op width =>
    refine ((triple_operator op width).pre fun _ h => ⟨h.1, h.2 op width rfl⟩).bind fun _ => ?_
    exact keeps_skipNewlines.bind fun _ => (keeps_atLeast he _).bind fun _ => keeps_return _
  · exact (triple_unexpected _).pre fun _ h => h.1

theorem keeps_chain (least : Nat) : around.Keeps (chain enter least) := by
  have hagain : around.Keeps (do return (← peekOperator least).isSome) := fun _ hstream => hstream
  exact (keeps_operand he).bind fun _ => (Keeps.whenAhead (keeps_link he least) hagain).bind
    fun _ => keeps_return _

/-! ### Items -/

omit he in
theorem keeps_anotherItem (closer : TokenKind) : around.Keeps (anotherItem closer) :=
  keeps_skipNewlines.bind fun _ => (keeps_eats rfl).bind fun _ =>
    triple_ite (keeps_skipNewlines.bind fun _ => (keeps_isAt _).bind fun _ =>
      (keeps_isAt _).bind fun _ => keeps_return _) (keeps_return _)

omit he in
theorem keeps_items {item : Parse α} (h : around.Keeps item) (closer : TokenKind) :
    around.Keeps (items item closer) :=
  keeps_skipNewlines.bind fun _ => (keeps_isAt _).bind fun _ => (keeps_isAt _).bind fun _ =>
    triple_ite (keeps_return _) (h.series (keeps_anotherItem closer))

theorem triple_spread :
    Triple around.Fails (around.StandsAt .ellipsis) (spread enter) fun _ => around.Stands :=
  (triple_take_kind rfl).bind fun _ => (keeps_expression he).bind fun _ => keeps_return _

theorem keeps_listItem : around.Keeps (listItem enter) :=
  Triple.isAt ((triple_spread he).bind fun _ => keeps_return _)
    (((keeps_expression he).bind fun _ => keeps_return _).pre fun _ h => h.1)

omit he in
theorem keeps_recordKey : around.Keeps recordKey := by
  refine triple_peekAt fun token => ?_
  split
  · next hkind =>
    rw [hkind]
    exact (triple_take_kind rfl).bind fun _ => keeps_return _
  · next hkind =>
    rw [hkind]
    split
    · exact (triple_take_kind rfl).bind fun _ => keeps_return _
    · exact (triple_fail fun _ => ⟨by simp, by simp⟩).pre fun _ h => h.1
  · exact (triple_unexpected _).pre fun _ h => h.1

theorem keeps_recordItem : around.Keeps (recordItem enter) := by
  refine Triple.isAt ((triple_spread he).bind fun _ => keeps_return _) ?_
  refine Triple.pre (keeps_peek.bind fun _ => ?_) fun _ h => h.1
  exact keeps_recordKey.bind fun _ => (keeps_expect rfl).bind fun _ =>
    keeps_skipNewlines.bind fun _ => (keeps_expression he).bind fun _ => keeps_return _

theorem triple_argumentsBehind (hopener : opener.kind = .lParen) :
    Triple around.Fails (around.under opener).Stands (argumentsBehind enter opener)
      fun _ => around.Stands :=
  (triple_of_under (keeps_items (keeps_argument he) _)).bind fun _ =>
    (triple_expectClosing hopener rfl).bind fun _ => keeps_return _

/-! ### Statements -/

theorem triple_letBinding :
    Triple around.Fails (around.StandsAt .kwLet) (letBinding enter) fun _ => around.Stands :=
  (triple_take_kind rfl).bind fun _ => (keeps_expect rfl).bind fun _ => (keeps_expect rfl).bind
    fun _ => (keeps_expression he).bind fun _ => keeps_return _

theorem triple_conditional :
    Triple around.Fails (around.StandsAt .kwIf) (conditional enter) fun _ => around.Stands := by
  refine (triple_take_kind rfl).bind fun _ => (keeps_expression he).bind fun _ =>
    (he _ _ .block).bind fun _ => (keeps_eats rfl).bind fun _ => triple_ite ?_ (keeps_return _)
  exact Triple.isAt ((he _ _ .conditional).bind fun _ => keeps_return _)
    ((Triple.bind (he _ _ .block) fun _ => keeps_return _).pre fun _ h => h.1)

theorem triple_selection :
    Triple around.Fails (around.StandsAt .kwMatch) (selection enter) fun _ => around.Stands :=
  (triple_take_kind rfl).bind fun _ => (keeps_expression he).bind fun _ =>
    (triple_expect_opener rfl).bind fun opener => Triple.lift fun hopener =>
      (triple_of_under keeps_skipNewlines).bind fun _ =>
        ((he around _ (.arms opener)).pre fun _ h => ⟨hopener, h⟩).bind
          fun _ => (triple_expectClosing hopener rfl).bind fun _ => keeps_return _

theorem keeps_assignmentStatement? : around.Keeps (assignmentStatement? enter) := by
  refine (keeps_assignment? he).bind fun found => ?_
  cases found <;> exact keeps_return _

theorem keeps_parenthesized? : around.Keeps (parenthesized? enter) := by
  refine (keeps_isAt _).bind fun _ => triple_ite (Keeps.attempt ?_) (keeps_return _)
  exact (keeps_callArguments he).bind fun _ => keeps_peekKind.bind fun _ => keeps_return _

omit he in
theorem keeps_commaBehind : around.Keeps commaBehind :=
  (keeps_eats rfl).bind fun _ =>
    triple_ite (keeps_skipNewlines.bind fun _ => keeps_return _) (keeps_return _)

theorem keeps_bareArguments : around.Keeps (bareArguments enter) :=
  Keeps.series (keeps_argument he) keeps_commaBehind

theorem keeps_operatorArguments : around.Keeps (operatorArguments enter) := by
  refine (keeps_parenthesized? he).bind fun found => ?_
  cases found with
  | some arguments => exact keeps_return _
  | none =>
    refine keeps_peekKind.bind fun first => triple_ite (keeps_return _) (triple_ite ?_ ?_)
    · have hbare : around.Keeps (some <$> bareArguments enter) := (keeps_bareArguments he).map _
      exact hbare.attempt.bind fun _ => keeps_return _
    · exact (keeps_bareArguments he).bind fun _ => keeps_return _

theorem keeps_operatorBlock : around.Keeps (operatorBlock enter) := by
  refine Triple.isAt ?_ ((keeps_return _).pre fun _ h => h.1)
  refine (triple_take_opener rfl).bind fun opener => Triple.lift fun hopener =>
    (triple_of_under keeps_skipNewlines).bind fun _ =>
      ((he around _ (.pipeline opener)).pre fun _ h => ⟨hopener, h⟩).bind
        fun _ => (triple_expectClosing hopener rfl).bind fun _ =>
          keeps_commaBehind.bind fun _ => triple_ite ?_ (keeps_return _)
  refine (keeps_parenthesized? he).bind fun found => ?_
  cases found with
  | some arguments => exact keeps_return _
  | none => exact (keeps_bareArguments he).bind fun _ => keeps_return _

theorem keeps_invocation : around.Keeps (invocation enter) :=
  keeps_entity.bind fun _ => (keeps_operatorArguments he).bind fun _ =>
    (keeps_operatorBlock he).bind fun _ => keeps_lastSpan.bind fun _ => keeps_return _

theorem keeps_assignmentOrInvocation : around.Keeps (assignmentOrInvocation enter) := by
  refine (keeps_assignmentStatement? he).bind fun found => ?_
  cases found with
  | some statement => exact keeps_return _
  | none =>
    refine (keeps_isAt _).bind fun _ => triple_ite (keeps_invocation he) ?_
    refine keeps_selector?.bind fun found => ?_
    cases found <;> exact triple_unexpected _

theorem keeps_statement : around.Keeps (statement enter) := by
  refine Triple.peekKind fun kind => ?_
  split
  · exact triple_letBinding he
  · exact (triple_conditional he).bind fun _ => keeps_return _
  · exact triple_selection he
  · exact (keeps_assignmentOrInvocation he).pre fun _ h => h.1
  · exact (keeps_assignmentOrInvocation he).pre fun _ h => h.1
  · exact (keeps_assignmentOrInvocation he).pre fun _ h => h.1
  · exact (triple_unexpected _).pre fun _ h => h.1

omit he in
theorem keeps_anotherStatement (closer : TokenKind) : around.Keeps (anotherStatement closer) :=
  (keeps_skip (by decide)).bind fun _ => (keeps_isAt _).bind fun _ =>
    triple_ite (keeps_return _) (triple_ite (keeps_return _) (triple_unexpected _))

theorem keeps_pipeline : around.Keeps (pipeline enter) := by
  refine (Keeps.series (keeps_statement he) (keeps_anotherStatement _)).bind fun statements => ?_
  split
  · exact keeps_return _
  · exact triple_unexpected _

omit he in
/-- An error at the end of the tokens, or of those of a replacement, is told of the bracket around
it. -/
theorem keeps_closing {rule : Parse α} (h : (around.under opener).Keeps rule) :
    (around.under opener).Keeps (closing opener rule) := by
  refine Triple.closing h fun error behind hfails hend => ?_
  -- Told anew where the rule has failed, with all brackets that are open there.
  obtain ⟨inner, hbehind⟩ := hfails.stands
  refine ⟨⟨inner, hbehind⟩, fun kind openedAt hcause => ?_,
    fun h => absurd h (by simp [foundEnd])⟩
  cases hcause
  exact unclosed_of_stands hbehind (hfails.ended hend)

theorem keeps_pipelineBehind : (around.under opener).Keeps (pipelineBehind enter opener) :=
  Triple.isAt triple_unclosed ((keeps_closing (keeps_pipeline he)).pre fun _ h => h.1)

theorem keeps_block : around.Keeps (block enter) := by
  refine (triple_expect_opener rfl).bind fun opener => Triple.lift fun hopener =>
    (triple_of_under keeps_skipNewlines).bind fun _ =>
      (triple_of_under (keeps_isAt _)).bind fun _ => ?_
  have hclose : ∀ body : Option Pipeline, Triple around.Fails (around.under opener).Stands (do
      let closer ← expectClosing .rBrace opener
      return Block.mk body (opener.span.through closer.span)) fun _ => around.Stands :=
    fun _ => (triple_expectClosing hopener rfl).bind fun _ => keeps_return _
  have hbody : (around.under opener).Keeps (some <$> pipelineBehind enter opener) :=
    Triple.map (keeps_pipelineBehind he) some
  exact triple_ite ((triple_of_under (keeps_return none)).bind fun body => hclose body)
    ((triple_of_under hbody).bind fun body => hclose body)

theorem keeps_pattern : around.Keeps (pattern enter) :=
  (triple_atArrow.post fun _ _ h => h.1).bind fun _ =>
    triple_ite (keeps_primary he) (keeps_expression he)

theorem keeps_arm : around.Keeps (arm enter) :=
  (Keeps.series (keeps_pattern he) keeps_commaBehind).bind fun _ => (keeps_expect rfl).bind fun _ =>
    (triple_expect_opener rfl).bind fun opener => Triple.lift fun hopener =>
      (triple_of_under keeps_skipNewlines).bind fun _ =>
        ((he around _ (.pipeline opener)).pre fun _ h => ⟨hopener, h⟩).bind
          fun _ => (triple_expectClosing hopener rfl).bind fun _ => keeps_return _

omit he in
theorem keeps_atArm : (around.under opener).Keeps (atArm opener) := by
  refine Triple.peekKind fun kind => ?_
  split
  · exact triple_pure fun _ h => h.1
  · exact triple_unclosed
  · exact triple_pure fun _ h => h.1

theorem keeps_armsBehind : (around.under opener).Keeps (armsBehind enter opener) :=
  keeps_atArm.bind fun _ => triple_ite
    (Keeps.series (keeps_arm he) ((keeps_skip (by decide)).bind fun _ => keeps_atArm))
    (keeps_return _)

/-- If nested parts close their brackets, so does what they are nested in. -/
theorem enters_rule : Enters fun _ goal => goal.rule enter := by
  intro around α goal
  cases goal with
  | expression least => exact keeps_chain he least
  | listItems => exact keeps_items (keeps_listItem he) _
  | recordItems => exact keeps_items (keeps_recordItem he) _
  | arguments => exact Triple.lift fun hopener => triple_argumentsBehind he hopener
  | conditional => exact triple_conditional he
  | block => exact keeps_block he
  | arms => exact Triple.lift fun _ => triple_of_under (keeps_armsBehind he)
  | pipeline => exact Triple.lift fun _ => triple_of_under (keeps_pipelineBehind he)

end

/-- Nested parts close their brackets, however deep they may be nested. -/
theorem enters_enterTo (limit depth : Nat) : Enters (enterTo limit depth) := by
  induction depth with
  | zero =>
    intro around α goal
    have hfail : ∀ around : Enclosure, Triple around.Fails around.Stands (enterTo limit 0 α goal)
        fun _ => goal.Behind around := fun _ => triple_fail fun _ => ⟨by simp, by simp⟩
    cases goal with
    | arguments | arms | pipeline => exact Triple.lift fun _ => triple_of_under (hfail _)
    | conditional => exact (hfail around).pre fun _ h => h.1
    | _ => exact hfail around
  | succ depth ih => exact enters_rule ih

/-! ### Programs -/

theorem keeps_frontmatter? : around.Keeps frontmatter? := by
  refine keeps_skipNewlines.bind fun _ => ?_
  refine Triple.isAt ?_ ((keeps_return _).pre fun _ h => h.1)
  refine Triple.bind (Q := fun _ => around.Stands) ?_ fun _ =>
    keeps_skipNewlines.bind fun _ => keeps_return _
  exact (triple_take_kind rfl).bind fun _ => (keeps_eat rfl).bind fun _ => (keeps_eat rfl).bind
    fun _ => keeps_lastSpan.bind fun _ => keeps_return _

end Enclosure

open Enclosure

/-- What an error about an unclosed bracket says of the tokens. -/
theorem Program.unclosed_of_ofTokens {limit : Nat} {tokens : List Token} {rejection : Rejection}
    (h : ofTokens limit tokens = .error rejection) {kind : TokenKind} {openedAt : Span}
    (hcause : rejection.error.cause = .unclosed kind openedAt) :
    Unclosed (TokenStream.ofTokens tokens).rest (TokenStream.ofTokens tokens).stop kind openedAt
      rejection.error.span := by
  obtain ⟨behind, hfails⟩ := error_of_triple keeps_frontmatter?
    (keeps_statement (enters_enterTo limit limit)) (keeps_anotherStatement .eof)
    (stands_ofTokens tokens) h
  exact hfails.unclosed kind openedAt hcause

-- The brace is closed, but the replacement ends where an expression should be.
example : (match Program.ofTokens 64 [⟨.identifier, "p", .zero⟩, ⟨.lBrace, "\x7b", .zero⟩,
      ⟨.identifier, "x", .zero⟩, ⟨.assign, "=", .zero⟩,
      ⟨.formatString, "f\"\x7b\x7d\"", .zero⟩, ⟨.rBrace, "\x7d", .zero⟩] with
    | .error rejection => some rejection.error.cause
    | .ok _ => none) = some (.unclosed .lBrace .zero) := by
  decide +kernel

end PipelineLang
