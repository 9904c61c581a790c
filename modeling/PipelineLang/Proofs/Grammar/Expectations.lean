import PipelineLang.Proofs.Grammar.Braces
import PipelineLang.Proofs.Grammar.StatementStarts
import PipelineLang.Proofs.Grammar.Unclosed

/-!
# What is found and what is expected

An error that says what could stand at a place says what stands there as well, and the two
exclude each other.

## Main definitions

- `Expectation.Admits` — the kinds of token that meet an expectation
- `SyntaxError.Excludes` — what an error has found is none of what it expects
- `Parse.Explains` — the errors of a rule are of this sort

## Main results

- `Grammar.explained_enterTo` — the errors of nested parts are, however deep
- `Program.excludes_of_ofSource` — and so are those of a source

## Design notes

An at sign starts a selector. One with no name behind it is found where a selector is expected,
and it is the only token that is told of in this way.
-/

namespace PipelineLang

open Parse Grammar

/-- The kinds of token that selectors start with. -/
def Grammar.selectorOpeners : List TokenKind := [.atSign, .kwThis, .identifier]

/-- Whether a token of some kind could stand where something is expected, or could be the first
token of it. -/
def Expectation.Admits : Expectation → TokenKind → Prop
  | .token kind, found => found = kind
  | .expression, found => startsArgument found
  | .statement, found => found ∈ Grammar.statementOpeners
  | .selector, found => found ∈ selectorOpeners

/-- What was found is none of what is told to be expected, unless it is an at sign where a
selector is expected. -/
def SyntaxError.Excludes (error : SyntaxError) : Prop :=
  ∀ expected found, error.cause = .unexpected expected found →
    (∀ one ∈ expected, ¬ one.Admits found) ∨ expected = [.selector] ∧ found = .atSign

theorem TokenStream.peek_passWhile_of_not (stream : TokenStream) {p : TokenKind → Bool}
    (h : p stream.peek.kind = false) : (stream.passWhile p).peek = stream.peek := by
  cases hrest : stream.rest with
  | nil => simp [TokenStream.passWhile, TokenStream.peek, hrest]
  | cons token rest =>
    have hhead : p token.kind = false := by simpa [TokenStream.peek, hrest] using h
    simp [TokenStream.passWhile, TokenStream.peek, hrest, hhead]

namespace Parse

variable {α β : Type} {P : TokenStream → Prop} {Q : α → TokenStream → Prop}
  {R : β → TokenStream → Prop} {stream behind : TokenStream}

/-- What `P` holds of before a rule, and `Q` behind it, where its error excludes what it has
found. -/
abbrev Explains (P : TokenStream → Prop) (rule : Parse α) (Q : α → TokenStream → Prop) : Prop :=
  Triple (fun error _ => error.Excludes) P rule Q

/-- From whatever stream, the error of a rule excludes what it has found. -/
abbrev Explained (rule : Parse α) : Prop := Explains (fun _ => True) rule fun _ _ => True

/-! ### Rules -/

section

variable {rule : Parse α} {next : α → Parse β}

theorem Explained.bind (h : rule.Explained) (hnext : ∀ a, (next a).Explained) :
    (rule >>= next).Explained := Triple.bind h hnext

/-- From some streams only. -/
theorem Explained.pre (h : rule.Explained) : Explains P rule fun _ _ => True :=
  Triple.pre h fun _ _ => trivial

theorem explained_return (a : α) : (pure a : Parse α).Explained := fun _ _ => trivial

theorem Explained.map (h : rule.Explained) (f : α → β) : (f <$> rule).Explained := Triple.map h f

/-- An error that does not say what it expects. -/
theorem explains_fail {cause : SyntaxCause}
    (h : ∀ expected found, cause ≠ .unexpected expected found) :
    Explains P (fail cause) Q :=
  fun _ _ expected found hcause => absurd hcause (h expected found)

theorem explains_unexpected {expected : List Expectation}
    (h : ∀ stream, P stream → ∀ one ∈ expected, ¬ one.Admits stream.peek.kind) :
    Explains P (unexpected expected) Q := by
  intro stream hstream expected' found hcause
  cases hcause
  exact .inl (h stream hstream)

theorem explained_peek : Parse.peek.Explained := fun _ _ => trivial

theorem explained_peekKind : Parse.peekKind.Explained := fun _ _ => trivial

theorem explained_lastSpan : lastSpan.Explained := fun _ _ => trivial

theorem explained_isAt (kind : TokenKind) : (Parse.isAt kind).Explained := fun _ _ => trivial

theorem explained_take : take.Explained := fun _ _ => trivial

theorem explained_takeSeveral (count : Nat) : (takeSeveral count).Explained := by
  induction count with
  | zero => exact explained_return ()
  | succ count ih => exact explained_take.bind fun _ => ih

theorem explained_skip (kinds : List TokenKind) : (skip kinds).Explained := fun _ _ => trivial

theorem explained_skipNewlines : skipNewlines.Explained :=
  (explained_skip _).bind fun _ => explained_return _

/-- A token is taken if it has some kind, and the stream stays before any other one. -/
theorem explains_eat (kind : TokenKind) :
    Explains P (eat kind) fun found stream => found = none → stream.peek.kind ≠ kind :=
  Triple.eat (fun _ _ => nofun) fun _ _ hkind _ => hkind

theorem explained_eat (kind : TokenKind) : (eat kind).Explained :=
  (explains_eat kind).post fun _ _ _ => trivial

theorem explained_eats (kind : TokenKind) : (eats kind).Explained :=
  (explained_eat kind).bind fun _ => explained_return _

theorem explained_expect (kind : TokenKind) : (expect kind).Explained := by
  refine Triple.expect (fun _ _ => trivial) (explains_unexpected fun stream h one hone => ?_)
  obtain rfl := List.mem_singleton.mp hone
  exact h.2

theorem explained_expectClosing (kind : TokenKind) (opener : Token) :
    (expectClosing kind opener).Explained :=
  (explained_isAt _).bind fun _ =>
    triple_ite (explains_fail (by simp)) (explained_expect kind)

/-! ### Readings that may be given up -/

theorem explained_attempt (rule : Parse (Option α)) : (attempt rule).Explained :=
  Triple.attempt (F := fun _ _ => True) (fun stream _ => by split <;> simp) fun _ _ => trivial

theorem Explained.commit {rule : Parse (Option α)} (h : rule.Explained) :
    (commit rule).Explained :=
  Triple.commit (h.post fun _ _ _ _ _ => trivial) fun _ _ => trivial

end

/-! ### Series -/

section

variable {item : Parse α} {again : Parse Bool}

theorem Explains.series (hitem : Explains P item fun _ _ => True)
    (hagain : Explains (fun _ => True) again fun more stream => more = true → P stream) :
    Explains P (series item again) fun items _ => items ≠ [] :=
  (Triple.series hitem (hagain.post fun _ _ h => ⟨trivial, h⟩) fun _ _ => trivial).post
    fun _ _ h => h.1

theorem Explained.series (hitem : item.Explained) (hagain : again.Explained) :
    Explains P (series item again) fun items _ => items ≠ [] :=
  ((Triple.series hitem (Triple.more hagain) fun _ h => h).pre fun _ _ => trivial).post
    fun _ _ h => h.1

/-- A series of items that may be empty. -/
theorem Explains.whenAhead (hitem : Explains P item fun _ _ => True)
    (hagain : Explains (fun _ => True) again fun more stream => more = true → P stream) :
    (whenAhead again item).Explained :=
  Triple.whenAhead hitem (hagain.post fun _ _ h => ⟨trivial, h⟩) fun _ _ => trivial

end

end Parse

namespace Grammar

/-! ### Names -/

theorem explained_identifier : identifier.Explained :=
  (explained_expect _).bind fun _ => explained_return _

theorem explained_entity : entity.Explained :=
  Triple.bind (explained_identifier.series (explained_eats _)) fun _ =>
    Explained.pre (explained_lastSpan.bind fun _ => explained_return _)

theorem explained_atFieldStep : atFieldStep.Explained := fun _ _ => trivial

theorem explained_anotherFieldStep : anotherFieldStep.Explained :=
  explained_atFieldStep.bind fun _ =>
    triple_ite (explained_take.bind fun _ => explained_return _) (explained_return _)

theorem explained_fieldPath (start : Span) (rooted : Bool) :
    (fieldPath start rooted).Explained := by
  have hsegment : fieldSegment.Explained :=
    explained_take.bind fun _ => (explained_eats _).bind fun _ => explained_return _
  exact Triple.bind (hsegment.series explained_anotherFieldStep) fun _ =>
    Explained.pre (explained_lastSpan.bind fun _ => explained_return _)

theorem explained_selector? : selector?.Explained := by
  refine Explained.commit (explained_peek.bind fun first => ?_)
  split
  · refine explained_take.bind fun _ => (explained_eat _).bind fun name => ?_
    cases name <;> exact explained_return _
  · refine explained_take.bind fun _ => explained_anotherFieldStep.bind fun more =>
      triple_ite ?_ (explained_return _)
    exact (explained_fieldPath _ _).bind fun _ => explained_return _
  · exact (explained_fieldPath _ _).bind fun _ => explained_return _
  · exact explained_return _

section

variable {enter : Enter} (he : ∀ (α : Type) (goal : Goal α), (enter α goal).Explained)

include he

/-! ### Expressions -/

theorem explained_expression : (expression enter).Explained := he _ _

theorem explained_assignment? : (assignment? enter).Explained := by
  refine Explained.bind ?_ fun target => ?_
  · refine Explained.commit (explained_selector?.bind fun target => ?_)
    cases target with
    | some target =>
      exact (explained_eats _).bind fun _ => triple_ite (explained_return _) (explained_return _)
    | none => exact explained_return _
  · cases target with
    | some target => exact (explained_expression he).bind fun _ => explained_return _
    | none => exact explained_return _

theorem explained_argument : (argument enter).Explained := by
  refine (explained_assignment? he).bind fun found => ?_
  cases found with
  | some _ => exact explained_return _
  | none => exact (explained_expression he).bind fun _ => explained_return _

theorem explained_callArguments : (callArguments enter).Explained :=
  (explained_expect _).bind fun _ => he _ _

omit he in
theorem explained_literal : literal.Explained := by
  refine explained_peek.bind fun token => ?_
  split
  · exact explained_take.bind fun _ => explained_return _
  · exact explains_fail (by simp)

/-- Behind the expression of a replacement there is no closing brace. -/
theorem explains_replacement (hn : Enclosure.Enters enter) {tokens : List Token}
    (hbraces : (bracesBehind? 0 tokens).isSome) :
    Explains (· = .ofTokens tokens) (replacement enter) fun _ _ => True := by
  let value : Parse Expr := do
    skipNewlines
    let value ← expression enter
    skipNewlines
    return value
  have hvalue : value.Explained :=
    explained_skipNewlines.bind fun _ => (explained_expression he).bind fun _ =>
      explained_skipNewlines.bind fun _ => explained_return _
  have hkeeps : ∀ around : Enclosure, around.Keeps value := fun _ =>
    Enclosure.keeps_skipNewlines.bind fun _ => (Enclosure.keeps_expression hn).bind fun _ =>
      Enclosure.keeps_skipNewlines.bind fun _ => Enclosure.keeps_return _
  let finish (value : Expr) : Parse Expr := do
    if ← Parse.isAt .eof then return value else unexpected [.token .rBrace]
  have heq : replacement enter = value >>= finish := by
    simp only [value, finish, replacement, bind_assoc, pure_bind]
  have hbehind : Explains (· = .ofTokens tokens) value
      fun _ stream => stream.peek.kind ≠ .rBrace := by
    rintro stream rfl
    have hrun := hvalue (.ofTokens tokens) trivial
    cases hfound : value.run (.ofTokens tokens) with
    | ok a behind => exact Enclosure.kind_ne_rBrace_of_keeps hkeeps hbraces hfound
    | error error behind =>
      rw [hfound] at hrun
      exact hrun
  rw [heq]
  refine hbehind.bind fun _ => Triple.isAt (triple_pure fun _ _ => trivial) ?_
  refine explains_unexpected fun stream h one hone => ?_
  obtain rfl := List.mem_singleton.mp hone
  exact h.1

theorem explained_segment (hn : Enclosure.Enters enter) {token : Token}
    {pieces : List FormatPiece} {piece : FormatPiece} (hkind : token.kind = .formatString)
    (hpieces : token.formatPieces = .ok pieces) (hpiece : piece ∈ pieces) :
    (segment enter piece).Explained := by
  cases piece with
  | text => exact explained_return _
  | replacement inner innerSpan span =>
    rw [Grammar.segment]
    split
    · next tokens htokens =>
      have hreplaces : token.Replaces tokens := ⟨hkind, _, _, _, _, hpieces, hpiece, htokens⟩
      have hrule := explains_replacement he hn hreplaces.isSome_bracesBehind?
      refine Explained.bind (Triple.within ?_) fun _ => explained_return _
      exact hrule.consequence (fun _ _ h _ _ => h) (fun _ h => h) fun _ _ _ _ _ => trivial
    · exact explains_fail (by simp)

theorem explains_formatString (hn : Enclosure.Enters enter) :
    Explains (fun stream => stream.peek.kind = .formatString) (formatString enter)
      fun _ _ => True := by
  refine Triple.peek fun token => ?_
  split
  · next pieces hpieces =>
    rintro stream ⟨hkind, rfl⟩
    have hsegments : (pieces.mapM (segment enter)).Explained :=
      triple_mapM fun _ hpiece => explained_segment he hn hkind hpieces hpiece
    exact (hsegments.bind fun _ => explained_take.bind fun _ => explained_return _) stream trivial
  · exact explains_fail (by simp)

theorem explained_call : (call enter).Explained := by
  refine explained_entity.bind fun _ => Triple.isAt ?_ ?_
  · exact Explained.pre ((explained_callArguments he).bind fun _ => explained_return _)
  · refine explains_unexpected fun stream h one hone => ?_
    obtain rfl := List.mem_singleton.mp hone
    exact h.2

omit he in
/-- The kinds of token that are no operators and that no operand starts with. -/
theorem not_startsArgument {kind : TokenKind} (hunary : unaryOp? kind = none)
    (hliteral : kind.isLiteral = false)
    (hkinds : kind ∉ [.identifier, .dollarVar, .kwThis, .atSign, .lBracket, .lBrace, .lParen]) :
    ¬ startsArgument kind := by
  cases kind <;> simp_all [unaryOp?, startsArgument, TokenKind.isLiteral]

theorem explains_primary (hn : Enclosure.Enters enter) :
    Explains (fun stream => unaryOp? stream.peek.kind = none) (primary enter)
      fun _ _ => True := by
  refine Triple.peek fun token => ?_
  split
  · next hkind =>
    exact (explains_formatString he hn).pre fun _ h => by rw [h.2, hkind]
  · refine Explained.pre (Explained.bind (fun _ _ => trivial) fun _ => triple_ite ?_ ?_)
    · exact (explained_call he).bind fun _ => explained_lastSpan.bind fun _ => explained_return _
    · exact explained_take.bind fun _ => explained_return _
  · exact Explained.pre (explained_take.bind fun _ => explained_return _)
  · exact Explained.pre (explained_take.bind fun _ => explained_return _)
  · exact Explained.pre (explained_take.bind fun _ => explained_identifier.bind
      fun _ => explained_return _)
  · exact Explained.pre (explained_take.bind fun _ => (he _ _).bind fun _ =>
      (explained_expectClosing _ _).bind fun _ => explained_return _)
  · exact Explained.pre (explained_take.bind fun _ => (he _ _).bind fun _ =>
      (explained_expectClosing _ _).bind fun _ => explained_return _)
  · exact Explained.pre (explained_take.bind fun _ => explained_skipNewlines.bind fun _ =>
      (explained_expression he).bind fun _ => explained_skipNewlines.bind fun _ =>
        (explained_expectClosing _ _).bind fun _ => explained_return _)
  · next hformat hname hvariable hthis hsign hbracket hbrace hparen =>
    split
    · exact Explained.pre explained_literal
    · next hliteral =>
      refine explains_unexpected fun stream h one hone => ?_
      obtain ⟨hunary, rfl⟩ := h
      obtain rfl := List.mem_singleton.mp hone
      refine not_startsArgument hunary (by simpa using hliteral) ?_
      simp only [List.mem_cons, List.not_mem_nil, or_false, not_or]
      exact ⟨hname, hvariable, hthis, hsign, hbracket, hbrace, hparen⟩

theorem explained_suffix : (suffix enter).Explained := by
  refine explained_take.bind fun opener => ?_
  split
  · refine Explained.bind (fun _ _ => trivial) fun _ => triple_ite ?_ ?_
    · exact (explained_call he).bind fun _ => explained_lastSpan.bind fun _ => explained_return _
    · exact explained_identifier.bind fun _ => (explained_eats _).bind fun _ =>
        explained_lastSpan.bind fun _ => explained_return _
  · exact explained_identifier.bind fun _ => explained_return _
  · exact explained_skipNewlines.bind fun _ => (explained_expression he).bind fun _ =>
      explained_skipNewlines.bind fun _ => (explained_expectClosing _ _).bind fun _ =>
        (explained_eats _).bind fun _ => explained_lastSpan.bind fun _ => explained_return _

theorem explains_suffixed (hn : Enclosure.Enters enter) :
    Explains (fun stream => unaryOp? stream.peek.kind = none) (suffixed enter)
      fun _ _ => True := by
  have hsuffixes : (whenAhead atSuffix (suffix enter)).Explained :=
    Explains.whenAhead (P := fun _ => True) (explained_suffix he) fun _ _ _ => trivial
  exact (explains_primary he hn).bind fun _ => hsuffixes.bind fun _ => explained_return _

theorem explained_lambda : (lambda enter).Explained :=
  explained_take.bind fun _ => explained_take.bind fun _ => explained_skipNewlines.bind fun _ =>
    (he _ _).bind fun _ => explained_return _

theorem explained_operand (hn : Enclosure.Enters enter) : (operand enter).Explained := by
  refine Triple.peekKind fun kind => ?_
  split
  · exact Explained.pre (explained_take.bind fun _ => (he _ _).bind fun _ => explained_return _)
  · next hunary =>
    have harrow : Explains (fun stream => True ∧ stream.peek.kind = kind) atArrow
        fun _ stream => unaryOp? stream.peek.kind = none :=
      fun stream h => by rw [← hunary, ← h.2]; rfl
    exact harrow.bind fun _ => triple_ite (Explained.pre (explained_lambda he))
      (explains_suffixed he hn)

omit he in
/-- An operator whose precedence is at least `least` is next. -/
def OperatorAhead (least : Nat) (stream : TokenStream) : Prop :=
  ((binaryOp? stream.peek.kind stream.peekSecond).filter
    fun (op, _) => least ≤ op.precedence).isSome

theorem explains_link (least : Nat) :
    Explains (OperatorAhead least) (link enter least) fun _ _ => True := by
  have hoperator : Explains (OperatorAhead least) (peekOperator least)
      fun found _ => found.isSome := fun _ h => h
  refine hoperator.bind fun found => ?_
  cases found with
  | some operator =>
    exact Explained.pre ((explained_takeSeveral _).bind fun _ =>
      explained_skipNewlines.bind fun _ => (he _ _).bind fun _ => explained_return _)
  | none => exact fun _ h => absurd h (by simp)

theorem explained_chain (hn : Enclosure.Enters enter) (least : Nat) :
    (chain enter least).Explained := by
  have hagain : Explains (fun _ => True) (do return (← peekOperator least).isSome)
      fun more stream => more = true → OperatorAhead least stream :=
    triple_of_ok fun stream _ => ⟨_, _, rfl, id⟩
  exact (explained_operand he hn).bind fun _ =>
    ((explains_link he least).whenAhead hagain).bind fun _ => explained_return _

/-! ### Items -/

omit he in
/-- Where the next token is neither the closing one nor the end, another item comes. -/
theorem explains_atEnd (closer : TokenKind) : Explains (fun _ => True)
    (do return (← Parse.isAt closer) || (← Parse.isAt .eof))
    fun ended stream => ended = false → stream.peek.kind ≠ closer := by
  refine triple_of_ok fun stream _ => ⟨_, _, rfl, fun hnot => ?_⟩
  rw [Bool.or_eq_false_iff, beq_eq_false_iff_ne] at hnot
  exact hnot.1

omit he in
/-- An item is read where the list is not closed. -/
theorem explained_items {α : Type} {item : Parse α} {closer : TokenKind}
    (h : Explains (fun stream => stream.peek.kind ≠ closer) item fun _ _ => True) :
    (items item closer).Explained := by
  have hagain : Explains (fun _ => True) (anotherItem closer)
      fun more stream => more = true → stream.peek.kind ≠ closer := by
    refine Triple.bind explained_skipNewlines fun _ => Triple.bind (explained_eats _)
      fun _ => triple_ite ?_ (triple_pure fun _ _ => nofun)
    refine Triple.bind explained_skipNewlines fun _ => ?_
    exact ((explains_atEnd closer).bind fun ended => triple_pure (a := !ended)
      fun _ h hmore => h (by simpa using hmore))
  have hitems : ∀ ended : Bool, Explains (fun stream => ended = false → stream.peek.kind ≠ closer)
      (if ended then return [] else series item (anotherItem closer)) fun _ _ => True := by
    intro ended
    cases ended with
    | true => exact triple_pure fun _ _ => trivial
    | false => exact ((h.series hagain).pre fun _ h => h rfl).post fun _ _ _ => trivial
  exact Explained.bind explained_skipNewlines fun _ => (explains_atEnd closer).bind hitems

theorem explained_spread : (spread enter).Explained :=
  explained_take.bind fun _ => (explained_expression he).bind fun _ => explained_return _

theorem explained_listItem : (listItem enter).Explained :=
  (explained_isAt _).bind fun _ =>
    triple_ite ((explained_spread he).bind fun _ => explained_return _)
      ((explained_expression he).bind fun _ => explained_return _)

omit he in
theorem explains_recordKey : Explains (fun stream => stream.peek.kind ≠ .rBrace ∧
    stream.peek.kind ≠ .ellipsis) recordKey fun _ _ => True := by
  refine Triple.peek fun token => ?_
  split
  · exact Explained.pre (explained_take.bind fun _ => explained_return _)
  · split
    · exact Explained.pre (explained_take.bind fun _ => explained_return _)
    · exact explains_fail (by simp)
  · next hname hstring =>
    refine explains_unexpected fun stream h one hone => ?_
    obtain ⟨⟨hbrace, hellipsis⟩, rfl⟩ := h
    simp only [List.mem_cons, List.not_mem_nil, or_false] at hone
    obtain rfl | rfl | rfl | rfl := hone
    · exact hname
    · exact hstring
    · exact hellipsis
    · exact hbrace

theorem explains_recordItem : Explains (fun stream => stream.peek.kind ≠ .rBrace)
    (recordItem enter) fun _ _ => True := by
  refine Triple.isAt
    (Explained.pre ((explained_spread he).bind fun _ => explained_return _)) ?_
  refine Triple.peek fun first => ?_
  refine (explains_recordKey.pre fun _ h => h.1).bind fun _ => ?_
  exact (explained_expect _).bind fun _ => explained_skipNewlines.bind fun _ =>
    (explained_expression he).bind fun _ => explained_return _

theorem explained_argumentsBehind (opener : Token) : (argumentsBehind enter opener).Explained :=
  (explained_items (explained_argument he).pre).bind fun _ =>
    (explained_expectClosing _ _).bind fun _ => explained_return _

theorem explained_pattern (hn : Enclosure.Enters enter) : (pattern enter).Explained := by
  have harrow : Explains (fun _ => True) atArrow
      fun found stream => found = true → stream.peek.kind = .identifier :=
    triple_of_ok fun stream _ => ⟨_, _, rfl, fun h => by simp at h; exact h.1⟩
  refine Triple.bind harrow fun found => ?_
  cases found with
  | true => exact (explains_primary he hn).pre fun _ h => by rw [h rfl]; rfl
  | false => exact Explained.pre (explained_expression he)

/-! ### Statements -/

theorem explained_letBinding : (letBinding enter).Explained :=
  explained_take.bind fun _ => (explained_expect _).bind fun _ => (explained_expect _).bind
    fun _ => (explained_expression he).bind fun _ => explained_return _

theorem explained_conditional : (conditional enter).Explained := by
  refine explained_take.bind fun _ => (explained_expression he).bind fun _ =>
    (he _ _).bind fun _ => (explained_eats _).bind fun _ => triple_ite ?_ (explained_return _)
  exact (explained_isAt _).bind fun _ => triple_ite
    ((he _ _).bind fun _ => explained_return _) ((he _ _).bind fun _ => explained_return _)

theorem explained_selection : (selection enter).Explained :=
  explained_take.bind fun _ => (explained_expression he).bind fun _ =>
    (explained_expect _).bind fun _ => explained_skipNewlines.bind fun _ => (he _ _).bind fun _ =>
      (explained_expectClosing _ _).bind fun _ => explained_return _

theorem explained_assignmentStatement? : (assignmentStatement? enter).Explained := by
  refine (explained_assignment? he).bind fun found => ?_
  cases found <;> exact explained_return _

omit he in
theorem explained_parenthesized? : (parenthesized? enter).Explained :=
  (explained_isAt _).bind fun _ => triple_ite (explained_attempt _) (explained_return _)

omit he in
theorem explained_commaBehind : commaBehind.Explained :=
  (explained_eats _).bind fun _ =>
    triple_ite (explained_skipNewlines.bind fun _ => explained_return _) (explained_return _)

theorem explained_bareArguments : (bareArguments enter).Explained :=
  ((explained_argument he).series explained_commaBehind).post fun _ _ _ => trivial

theorem explained_operatorArguments : (operatorArguments enter).Explained := by
  refine explained_parenthesized?.bind fun found => ?_
  cases found with
  | some arguments => exact explained_return _
  | none =>
    refine explained_peekKind.bind fun first =>
      triple_ite (explained_return _) (triple_ite ?_ ?_)
    · exact (explained_attempt _).bind fun _ => explained_return _
    · exact (explained_bareArguments he).bind fun _ => explained_return _

theorem explained_operatorBlock : (operatorBlock enter).Explained := by
  refine (explained_isAt _).bind fun _ => triple_ite ?_ (explained_return _)
  refine explained_take.bind fun opener => explained_skipNewlines.bind fun _ =>
    (he _ _).bind fun _ => (explained_expectClosing _ _).bind fun _ =>
      explained_commaBehind.bind fun _ => triple_ite ?_ (explained_return _)
  refine explained_parenthesized?.bind fun found => ?_
  cases found with
  | some arguments => exact explained_return _
  | none => exact (explained_bareArguments he).bind fun _ => explained_return _

theorem explained_invocation : (invocation enter).Explained :=
  explained_entity.bind fun _ => (explained_operatorArguments he).bind fun _ =>
    (explained_operatorBlock he).bind fun _ => explained_lastSpan.bind fun _ => explained_return _

omit he in
/-- Where no selector is read, none starts, but for an at sign. -/
theorem kind_of_selector?_none {stream behind : TokenStream}
    (h : selector?.run stream = .ok none behind) :
    behind = stream ∧ (stream.peek.kind ∈ selectorOpeners → stream.peek.kind = .atSign) := by
  obtain ⟨_, hnone, -⟩ | ⟨-, rfl, after, hrule⟩ := commit_ok h
  · cases hnone
  refine ⟨rfl, fun hkind => ?_⟩
  obtain ⟨first, middle, hpeek, hrule⟩ := bind_ok hrule
  cases hpeek
  split at hrule
  · next hsign => exact hsign
  · obtain ⟨_, _, -, hrule⟩ := bind_ok hrule
    obtain ⟨more, _, -, hrule⟩ := bind_ok hrule
    cases more with
    | true =>
      obtain ⟨_, _, -, hrule⟩ := bind_ok hrule
      cases hrule
    | false => cases hrule
  · obtain ⟨_, _, -, hrule⟩ := bind_ok hrule
    cases hrule
  · next hsign hthis hname =>
    simp only [selectorOpeners, List.mem_cons, List.not_mem_nil, or_false] at hkind
    obtain hkind | hkind | hkind := hkind
    · exact hkind
    · exact absurd hkind hthis
    · exact absurd hkind hname

omit he in
/-- Where no assignment is read, no equals sign comes behind a selector. -/
theorem kind_of_assignmentStatement?_none {stream behind : TokenStream}
    (h : (assignmentStatement? enter).run stream = .ok none behind) :
    behind = stream ∧ ∀ target middle, selector?.run stream = .ok (some target) middle →
      middle.peek.kind ≠ .assign := by
  obtain ⟨found, last, hassignment, h⟩ := bind_ok h
  cases found with
  | some found => cases h
  | none =>
    cases h
    obtain ⟨target, last, hcommit, hvalue⟩ := bind_ok hassignment
    cases target with
    | some target =>
      obtain ⟨_, _, -, hvalue⟩ := bind_ok hvalue
      cases hvalue
    | none =>
      cases hvalue
      obtain ⟨_, hnone, -⟩ | ⟨-, rfl, after, hrule⟩ := commit_ok hcommit
      · cases hnone
      refine ⟨rfl, fun target middle hselector hassign => ?_⟩
      rw [bind_eq hselector] at hrule
      have heats : (eats .assign).run middle = .ok true middle.pass := by
        have hat : (Parse.isAt .assign).run middle = .ok true middle := by
          rw [← beq_iff_eq.mpr hassign]
          rfl
        have heat : (eat .assign).run middle = .ok (some middle.peek) middle.pass := by
          rw [eat, bind_eq hat]
          rfl
        rw [eats, bind_eq heat]
        rfl
      rw [bind_eq heats] at hrule
      cases hrule

theorem explains_assignmentOrInvocation : Explains (fun stream =>
    stream.peek.kind ∈ selectorOpeners) (assignmentOrInvocation enter) fun _ _ => True := by
  have hassignment : Explains (fun stream => stream.peek.kind ∈ selectorOpeners)
      (assignmentStatement? enter) fun found stream => found = none →
        stream.peek.kind ∈ selectorOpeners ∧ ∀ target middle,
          selector?.run stream = .ok (some target) middle → middle.peek.kind ≠ .assign := by
    intro stream hstream
    have hrule := explained_assignmentStatement? he stream trivial
    cases hrun : (assignmentStatement? enter).run stream with
    | ok found behind =>
      rintro rfl
      obtain ⟨rfl, hassign⟩ := kind_of_assignmentStatement?_none hrun
      exact ⟨hstream, hassign⟩
    | error error behind =>
      rw [hrun] at hrule
      exact hrule
  have hselector : Explains (fun stream => stream.peek.kind ∈ selectorOpeners ∧ ∀ target middle,
        selector?.run stream = .ok (some target) middle → middle.peek.kind ≠ .assign) selector?
      fun found stream =>
        stream.peek.kind ≠ .assign ∧ (found = none → stream.peek.kind = .atSign) := by
    refine triple_of_ok fun stream ⟨hstream, hassign⟩ => ?_
    obtain ⟨found, behind, hrun⟩ := total_selector? stream
    refine ⟨found, behind, hrun, ?_⟩
    cases found with
    | some target => exact ⟨hassign target behind hrun, nofun⟩
    | none =>
      obtain ⟨rfl, hsign⟩ := kind_of_selector?_none hrun
      exact ⟨by rw [hsign hstream]; decide, fun _ => hsign hstream⟩
  refine hassignment.bind fun found => ?_
  cases found with
  | some statement => exact Explained.pre (explained_return _)
  | none =>
    refine Triple.isAt (Explained.pre (explained_invocation he)) ?_
    refine (hselector.pre fun _ h => h.1 rfl).bind fun found => ?_
    cases found with
    | some target =>
      refine explains_unexpected fun stream h one hone => ?_
      obtain rfl := List.mem_singleton.mp hone
      exact h.1
    | none =>
      rintro stream ⟨-, hsign⟩ expected found hcause
      cases hcause
      exact .inr ⟨rfl, hsign rfl⟩

theorem explained_statement : (statement enter).Explained := by
  refine Triple.peekKind fun kind => ?_
  split
  · exact Explained.pre (explained_letBinding he)
  · exact Explained.pre ((explained_conditional he).bind fun _ => explained_return _)
  · exact Explained.pre (explained_selection he)
  · exact (explains_assignmentOrInvocation he).pre fun _ h => by rw [h.2]; decide
  · exact (explains_assignmentOrInvocation he).pre fun _ h => by rw [h.2]; decide
  · exact (explains_assignmentOrInvocation he).pre fun _ h => by rw [h.2]; decide
  · next hlet hif hmatch hname hthis hsign =>
    refine explains_unexpected fun stream h one hone => ?_
    obtain ⟨-, rfl⟩ := h
    obtain rfl := List.mem_singleton.mp hone
    show _ ∉ Grammar.statementOpeners
    simp only [Grammar.statementOpeners, List.mem_cons, List.not_mem_nil, or_false, not_or]
    exact ⟨hlet, hif, hmatch, hname, hthis, hsign⟩

omit he in
theorem explained_anotherStatement (closer : TokenKind) : (anotherStatement closer).Explained := by
  have hskip : Explains (fun _ => True) (skip [.newline, .pipe]) fun separated stream =>
      separated = false → stream.peek.kind ≠ .newline ∧ stream.peek.kind ≠ .pipe := by
    refine triple_of_ok fun stream _ => ⟨_, _, rfl, fun hnone => ?_⟩
    rw [stream.peek_passWhile_of_not hnone]
    simpa using hnone
  refine Triple.bind hskip fun separated => Triple.isAt (triple_pure fun _ _ => trivial) ?_
  cases separated with
  | true => exact triple_pure fun _ _ => trivial
  | false =>
    refine explains_unexpected fun stream h one hone => ?_
    obtain ⟨hskipped, hcloser⟩ := h
    simp only [List.mem_cons, List.not_mem_nil, or_false] at hone
    obtain rfl | rfl | rfl := hone
    · exact (hskipped rfl).1
    · exact (hskipped rfl).2
    · exact hcloser

theorem explained_pipeline : (pipeline enter).Explained := by
  refine Triple.bind ((explained_statement he).series (explained_anotherStatement _))
    fun statements => ?_
  split
  · exact triple_pure fun _ _ => trivial
  · next hnone =>
    cases statements with
    | nil => exact fun _ h => absurd rfl h
    | cons statement statements =>
      simp [Pipeline.ofStatements?, List.getLast?_cons] at hnone

omit he in
theorem explained_closing {α : Type} {rule : Parse α} (opener : Token) (h : rule.Explained) :
    (closing opener rule).Explained :=
  h.closing fun _ _ _ _ => nofun

theorem explained_pipelineBehind (opener : Token) : (pipelineBehind enter opener).Explained :=
  (explained_isAt _).bind fun _ => triple_ite (explains_fail (by simp))
    (explained_closing opener (explained_pipeline he))

theorem explained_block : (block enter).Explained := by
  refine (explained_expect _).bind fun opener => explained_skipNewlines.bind fun _ =>
    (explained_isAt _).bind fun _ => ?_
  have hclose : ∀ body : Option Pipeline, Parse.Explained (do
      let closer ← expectClosing .rBrace opener
      return Block.mk body (opener.span.through closer.span)) :=
    fun _ => (explained_expectClosing _ _).bind fun _ => explained_return _
  exact triple_ite ((explained_return none).bind hclose)
    (((explained_pipelineBehind he opener).map some).bind hclose)

theorem explained_arm (hn : Enclosure.Enters enter) : (arm enter).Explained :=
  Triple.bind ((explained_pattern he hn).series explained_commaBehind) fun _ =>
    Explained.pre ((explained_expect _).bind fun _ => (explained_expect _).bind fun _ =>
      explained_skipNewlines.bind fun _ => (he _ _).bind fun _ =>
        (explained_expectClosing _ _).bind fun _ => explained_return _)

omit he in
theorem explained_atArm (opener : Token) : (atArm opener).Explained := by
  refine explained_peekKind.bind fun kind => ?_
  split
  · exact explained_return _
  · exact explains_fail (by simp)
  · exact explained_return _

theorem explained_armsBehind (hn : Enclosure.Enters enter) (opener : Token) :
    (armsBehind enter opener).Explained := by
  refine (explained_atArm opener).bind fun _ => triple_ite ?_ (explained_return _)
  have hagain : (anotherArm opener).Explained :=
    (explained_skip _).bind fun _ => explained_atArm opener
  exact ((explained_arm he hn).series hagain).post fun _ _ _ => trivial

theorem explained_rule (hn : Enclosure.Enters enter) {α : Type} (goal : Goal α) :
    (goal.rule enter).Explained := by
  cases goal with
  | expression least => exact explained_chain he hn least
  | listItems => exact explained_items (explained_listItem he).pre
  | recordItems => exact explained_items (explains_recordItem he)
  | arguments opener => exact explained_argumentsBehind he opener
  | conditional => exact explained_conditional he
  | block => exact explained_block he
  | arms opener => exact explained_armsBehind he hn opener
  | pipeline opener => exact explained_pipelineBehind he opener

end

/-- The errors of nested parts exclude what they have found, however deep they are nested. -/
theorem explained_enterTo (limit depth : Nat) (α : Type) (goal : Goal α) :
    (enterTo limit depth α goal).Explained := by
  induction depth generalizing α with
  | zero => exact explains_fail (by simp)
  | succ depth ih => exact explained_rule ih (Enclosure.enters_enterTo limit depth) goal

theorem explained_frontmatter? : frontmatter?.Explained := by
  refine explained_skipNewlines.bind fun _ => (explained_isAt _).bind fun _ =>
    triple_ite ?_ (explained_return _)
  refine Explained.bind ?_ fun _ => explained_skipNewlines.bind fun _ => explained_return _
  exact explained_take.bind fun _ => (explained_eat _).bind fun _ => (explained_eat _).bind
    fun _ => explained_lastSpan.bind fun _ => explained_return _

end Grammar

/-! ### Programs -/

theorem Program.excludes_of_ofTokens {limit : Nat} {tokens : List Token} {rejection : Rejection}
    (h : ofTokens limit tokens = .error rejection) : rejection.error.Excludes := by
  obtain ⟨-, hexcludes⟩ := error_of_triple explained_frontmatter?
    (explained_statement (explained_enterTo limit limit)) (explained_anotherStatement .eof)
    trivial h
  exact hexcludes

/-- What an error of a source has found is none of what it expects, unless it is an at sign where
a selector is expected. -/
theorem Program.excludes_of_ofSource {limit : Nat} {source : String} {rejection : Rejection}
    (h : ofSource limit source = .error (.rejected rejection)) : rejection.error.Excludes := by
  rw [ofSource] at h
  split at h
  · simp at h
  · split at h
    · simp at h
    · next hrejection =>
      obtain rfl := SourceError.rejected.inj (Except.error.inj h)
      exact excludes_of_ofTokens hrejection

end PipelineLang
