import PipelineLang.Proofs.Grammar.Triple

/-!
# What rules report

A rule that fails tells of a token ahead, of the bracket that it wants to close, or of a
token in a replacement of a format string. What holds of all these tokens decides what
holds of its errors.

## Main definitions

- `TokenStream.Holds` — something holds of all tokens of a stream
- `Parse.KeepsTo` — a rule keeps to such streams and to errors of some sort
- `Grammar.Reports` — what tokens have to be like for errors to be of some sort

## Main results

- `Grammar.entersKeeping_enterTo` — nested parts keep to streams and errors, however deep
- `Program.error_of_ofTokens` — what holds of the error of tokens that are no program

## Design notes

Unlike a derivation, this follows rules that fail and rules that are given up again, so
it says nothing about the trees that they yield.
-/

namespace PipelineLang

/-- Something holds of all tokens of a stream. -/
structure TokenStream.Holds (T : Token → Prop) (stream : TokenStream) : Prop where
  rest : ∀ token ∈ stream.rest, T token
  stop : T stream.stop

namespace TokenStream

variable {T : Token → Prop} {stream : TokenStream}

theorem Holds.peek (h : stream.Holds T) : T stream.peek := by
  rw [TokenStream.peek]
  cases hrest : stream.rest with
  | nil => exact h.stop
  | cons token rest => exact h.rest token (by simp [hrest])

theorem Holds.pass (h : stream.Holds T) : stream.pass.Holds T := by
  unfold TokenStream.pass
  split
  · exact h
  · next token rest hrest =>
    exact ⟨fun other hother => h.rest other (by simp [hrest, hother]), h.stop⟩

theorem Holds.passWhile (h : stream.Holds T) (p : TokenKind → Bool) :
    (stream.passWhile p).Holds T :=
  ⟨fun token htoken => h.rest token (List.mem_of_mem_drop htoken), h.stop⟩

end TokenStream

namespace Parse

variable {α β : Type} {T : Token → Prop} {E : SyntaxError → Prop}

/-- `T` holds of all tokens where a rule has failed, and `E` of its error. -/
def Fails (T : Token → Prop) (E : SyntaxError → Prop) (error : SyntaxError)
    (behind : TokenStream) : Prop := behind.Holds T ∧ E error

/-- A rule keeps to streams of tokens that `T` holds of, and to errors that `E` holds of; `Q` holds
of what it yields. -/
abbrev KeepsTo (T : Token → Prop) (E : SyntaxError → Prop) (rule : Parse α) (Q : α → Prop) : Prop :=
  Triple (Fails T E) (·.Holds T) rule fun a behind => behind.Holds T ∧ Q a

section

variable {rule : Parse α} {Q : α → Prop}

theorem KeepsTo.mono {R : α → Prop} (h : KeepsTo T E rule Q) (hQ : ∀ a, Q a → R a) :
    KeepsTo T E rule R := h.post fun a _ h => ⟨h.1, hQ a h.2⟩

theorem KeepsTo.any (h : KeepsTo T E rule Q) : KeepsTo T E rule fun _ => True :=
  h.mono fun _ _ => trivial

theorem KeepsTo.bind {next : α → Parse β} {R : β → Prop} (h : KeepsTo T E rule Q)
    (hnext : ∀ a, Q a → KeepsTo T E (next a) R) : KeepsTo T E (rule >>= next) R :=
  Triple.bind h fun a stream hstream => hnext a hstream.2 stream hstream.1

theorem keeps_pure {a : α} (h : Q a) : KeepsTo T E (pure a) Q := fun _ hstream => ⟨hstream, h⟩

theorem keeps_return (a : α) : KeepsTo T E (pure a) fun _ => True := keeps_pure trivial

theorem KeepsTo.map (h : KeepsTo T E rule Q) (f : α → β) : KeepsTo T E (f <$> rule) fun _ => True :=
  Triple.map h.any f

/-- A rule that looks at the stream and leaves it as it is. -/
theorem keeps_look {look : TokenStream → α}
    (h : ∀ stream : TokenStream, stream.Holds T → Q (look stream)) :
    KeepsTo T E (fun stream => .ok (look stream) stream) Q :=
  fun stream hstream => ⟨hstream, h stream hstream⟩

end

theorem keeps_peek : KeepsTo T E peek T := keeps_look fun _ h => h.peek

theorem keeps_peekKind : KeepsTo T E peekKind fun _ => True := keeps_look fun _ _ => trivial

theorem keeps_peekSecond : KeepsTo T E peekSecond fun _ => True := keeps_look fun _ _ => trivial

theorem keeps_isAt (kind : TokenKind) : KeepsTo T E (isAt kind) fun _ => True :=
  keeps_look fun _ _ => trivial

theorem keeps_lastSpan : KeepsTo T E lastSpan fun _ => True := keeps_look fun _ _ => trivial

theorem keeps_take : KeepsTo T E take T := fun _ hstream => ⟨hstream.pass, hstream.peek⟩

theorem keeps_takeSeveral (count : Nat) : KeepsTo T E (takeSeveral count) fun _ => True := by
  induction count with
  | zero => exact keeps_return _
  | succ count ih => exact keeps_take.bind fun _ _ => ih

theorem keeps_eat (kind : TokenKind) :
    KeepsTo T E (eat kind) fun found => ∀ token ∈ found, T token :=
  (keeps_isAt kind).bind fun found _ =>
    triple_ite (keeps_take.bind fun token htoken => keeps_pure (by simpa using htoken))
      (keeps_pure (by simp))

theorem keeps_eats (kind : TokenKind) : KeepsTo T E (eats kind) fun _ => True :=
  (keeps_eat kind).bind fun _ _ => keeps_return _

theorem keeps_skip (kinds : List TokenKind) : KeepsTo T E (skip kinds) fun _ => True :=
  fun _ hstream => ⟨hstream.passWhile _, trivial⟩

theorem keeps_skipNewlines : KeepsTo T E skipNewlines fun _ => True :=
  (keeps_skip _).bind fun _ _ => keeps_return _

/-- A rule that fails at the next token. -/
theorem keeps_fail {cause : TokenStream → SyntaxCause} {Q : α → Prop}
    (h : ∀ stream : TokenStream, stream.Holds T → E ⟨cause stream, stream.peek.span⟩) :
    KeepsTo T E (fun stream => fail (cause stream) stream) Q :=
  fun stream hstream => ⟨hstream, h stream hstream⟩

section

variable {rule : Parse (Option α)} {Q : α → Prop}

theorem KeepsTo.attempt (h : KeepsTo T E rule fun found => ∀ a ∈ found, Q a) :
    KeepsTo T E (attempt rule) fun found => ∀ a ∈ found, Q a :=
  Triple.attempt (h.post fun _ _ h a ha => ⟨h.1, by simpa using h.2 a ha⟩)
    fun _ h => ⟨h, by simp⟩

theorem KeepsTo.commit (h : KeepsTo T E rule fun found => ∀ a ∈ found, Q a) :
    KeepsTo T E (commit rule) fun found => ∀ a ∈ found, Q a :=
  Triple.commit (h.post fun _ _ h a ha => ⟨h.1, by simpa using h.2 a ha⟩)
    fun _ h => ⟨h, by simp⟩

end

theorem KeepsTo.within {rule : Parse α} {Q : α → Prop} {inner : TokenStream}
    (h : KeepsTo T E rule Q) (hinner : inner.Holds T) : KeepsTo T E (within inner rule) Q :=
  Triple.within (h.consequence (fun _ _ h _ hstream => ⟨hstream, h.2⟩) (fun _ h => h ▸ hinner)
    fun _ _ h _ hstream => ⟨hstream, h.2⟩)

section

variable {item : Parse α} {again : Parse Bool} {Q : α → Prop}

theorem KeepsTo.series (hitem : KeepsTo T E item Q) (hagain : KeepsTo T E again fun _ => True) :
    KeepsTo T E (series item again) fun _ => True :=
  (Triple.series (hitem.post fun _ _ h => h.1) (Triple.more (hagain.post fun _ _ h => h.1))
    fun _ h => h).post fun _ _ h => ⟨h.2, trivial⟩

theorem KeepsTo.whenAhead {ahead : Parse Bool} (hahead : KeepsTo T E ahead fun _ => True)
    (hitem : KeepsTo T E item Q) : KeepsTo T E (whenAhead ahead item) fun _ => True :=
  hahead.bind fun _ _ => triple_ite (hitem.series hahead) (keeps_return _)

theorem KeepsTo.mapM {f : β → Parse α} {items : List β} (h : ∀ b ∈ items, KeepsTo T E (f b) Q) :
    KeepsTo T E (items.mapM f) fun _ => True :=
  (triple_mapM fun b hb => (h b hb).post fun _ _ h => h.1).post fun _ _ h => ⟨h, trivial⟩

end

end Parse

open Parse

/-- The token of an opening bracket that a nested part is told of. -/
def Goal.Opens (T : Token → Prop) : {α : Type} → Goal α → Prop
  | _, .arguments opener => T opener
  | _, .arms opener => T opener
  | _, .pipeline opener => T opener
  | _, _ => True

namespace Grammar

/-- Errors at tokens that `T` holds of are of the sort `E`, and `T` holds of the tokens in
format strings, too. -/
structure Reports (T : Token → Prop) (E : SyntaxError → Prop) : Prop where
  unexpected : ∀ token expected, T token → E ⟨.unexpected expected token.kind, token.span⟩
  unclosed : ∀ token opener, T token → T opener → E ⟨.unclosed opener.kind opener.span, token.span⟩
  nesting : ∀ token limit, T token → E ⟨.nestingTooDeep limit, token.span⟩
  literal : ∀ token next, T token → T next → token.kind.isLiteral →
    token.kind ≠ .formatString → Literal.ofText? token.kind token.text = none →
    E ⟨.invalidLiteral token.text, next.span⟩
  key : ∀ token next, T token → T next → token.kind = .string →
    StringLiteral.read? token.text = none → E ⟨.invalidLiteral token.text, next.span⟩
  format : ∀ token next error, T token → T next → token.kind = .formatString →
    token.formatPieces = .error error → E ⟨.malformedFormat, next.span⟩
  inner : ∀ token pieces inner innerSpan span, T token → token.kind = .formatString →
    token.formatPieces = .ok pieces → .replacement inner innerSpan span ∈ pieces →
    (∀ next error, T next → (Scanner.within inner innerSpan).tokens? = .error error →
      E ⟨.malformedFormat, next.span⟩) ∧
    ∀ tokens, (Scanner.within inner innerSpan).tokens? = .ok tokens →
      (TokenStream.ofTokens tokens).Holds T

variable {T : Token → Prop} {E : SyntaxError → Prop} (hr : Reports T E)

/-- A way to read nested parts keeps to streams and errors. -/
def EntersKeeping (T : Token → Prop) (E : SyntaxError → Prop) (enter : Enter) : Prop :=
  ∀ (α : Type) (goal : Goal α), goal.Opens T → KeepsTo T E (enter α goal) fun _ => True

include hr

theorem keeps_unexpected {α : Type} {Q : α → Prop} (expected : List Expectation) :
    KeepsTo T E (unexpected expected) Q :=
  keeps_fail fun stream h => hr.unexpected stream.peek expected h.peek

theorem keeps_unclosed {α : Type} {Q : α → Prop} {opener : Token} (hopener : T opener) :
    KeepsTo T E (unclosed opener) Q :=
  keeps_fail fun stream h => hr.unclosed stream.peek opener h.peek hopener

theorem keeps_expect (kind : TokenKind) : KeepsTo T E (expect kind) T := by
  refine (keeps_eat kind).bind fun found hfound => ?_
  cases found with
  | some token => exact keeps_pure (hfound token rfl)
  | none => exact keeps_unexpected hr _

theorem keeps_expectClosing (kind : TokenKind) {opener : Token} (hopener : T opener) :
    KeepsTo T E (expectClosing kind opener) T :=
  (keeps_isAt _).bind fun _ _ => triple_ite (keeps_unclosed hr hopener) (keeps_expect hr kind)

/-! ### Names -/

theorem keeps_identifier : KeepsTo T E identifier fun _ => True :=
  (keeps_expect hr _).bind fun _ _ => keeps_return _

theorem keeps_entity : KeepsTo T E entity fun _ => True :=
  ((keeps_identifier hr).series (keeps_eats _)).bind fun _ _ =>
    keeps_lastSpan.bind fun _ _ => keeps_return _

omit hr in
theorem keeps_anotherFieldStep : KeepsTo T E anotherFieldStep fun _ => True :=
  (keeps_peekKind.bind fun _ _ => keeps_peekSecond.bind fun _ _ => keeps_return _).bind fun _ _ =>
    triple_ite (keeps_take.bind fun _ _ => keeps_return _) (keeps_return _)

omit hr in
theorem keeps_fieldPath (start : Span) (rooted : Bool) :
    KeepsTo T E (fieldPath start rooted) fun _ => True :=
  (KeepsTo.series (keeps_take.bind fun _ _ => (keeps_eats _).bind fun _ _ => keeps_return _)
    keeps_anotherFieldStep).bind fun _ _ => keeps_lastSpan.bind fun _ _ => keeps_return _

omit hr in
theorem keeps_selector? : KeepsTo T E selector? fun _ => True := by
  refine (KeepsTo.commit (Q := fun _ => True) (keeps_peek.bind fun first _ => ?_)).any
  split
  · refine keeps_take.bind fun _ _ => (keeps_eat _).bind fun name _ => ?_
    cases name <;> exact keeps_pure (by simp)
  · refine keeps_take.bind fun _ _ => keeps_anotherFieldStep.bind fun _ _ => triple_ite ?_ ?_
    · exact (keeps_fieldPath _ _).bind fun _ _ => keeps_pure (by simp)
    · exact keeps_pure (by simp)
  · exact (keeps_fieldPath _ _).bind fun _ _ => keeps_pure (by simp)
  · exact keeps_pure (by simp)

section

variable {enter : Enter} (he : EntersKeeping T E enter)

include he

/-! ### Expressions -/

omit hr in
theorem keeps_atLeast (least : Nat) :
    KeepsTo T E (enter _ (.expression least)) fun _ => True :=
  he _ (.expression least) trivial

omit hr in
theorem keeps_expression : KeepsTo T E (expression enter) fun _ => True := keeps_atLeast he 0

omit hr in
theorem keeps_assignment? : KeepsTo T E (assignment? enter) fun _ => True := by
  refine KeepsTo.bind (Q := fun _ => True) ?_ fun target _ => ?_
  · refine (KeepsTo.commit (Q := fun _ => True) (keeps_selector?.bind fun target _ => ?_)).any
    cases target with
    | some target =>
      exact (keeps_eats _).bind fun _ _ => triple_ite (keeps_pure (by simp)) (keeps_pure (by simp))
    | none => exact keeps_pure (by simp)
  · cases target with
    | some target => exact (keeps_expression he).bind fun _ _ => keeps_return _
    | none => exact keeps_return _

omit hr in
theorem keeps_argument : KeepsTo T E (argument enter) fun _ => True := by
  refine (keeps_assignment? he).bind fun found _ => ?_
  cases found with
  | some _ => exact keeps_return _
  | none => exact (keeps_expression he).bind fun _ _ => keeps_return _

theorem keeps_callArguments : KeepsTo T E (callArguments enter) fun _ => True :=
  (keeps_expect hr _).bind fun opener hopener => he _ (.arguments opener) hopener

theorem keeps_replacement : KeepsTo T E (replacement enter) fun _ => True :=
  keeps_skipNewlines.bind fun _ _ => (keeps_expression he).bind fun _ _ =>
    keeps_skipNewlines.bind fun _ _ => (keeps_isAt _).bind fun _ _ =>
      triple_ite (keeps_return _) (keeps_unexpected hr _)

theorem keeps_segment {token : Token} {pieces : List FormatPiece} {piece : FormatPiece}
    (htoken : T token) (hkind : token.kind = .formatString)
    (hpieces : token.formatPieces = .ok pieces)
    (hpiece : piece ∈ pieces) : KeepsTo T E (segment enter piece) fun _ => True := by
  cases piece with
  | text => exact keeps_return _
  | replacement inner innerSpan span =>
    obtain ⟨herror, hok⟩ := hr.inner token pieces _ _ _ htoken hkind hpieces hpiece
    rw [segment]
    split
    · next tokens htokens =>
      exact ((keeps_replacement hr he).within (hok tokens htokens)).bind fun _ _ => keeps_return _
    · next error hfound =>
      exact keeps_fail fun stream h => herror stream.peek error h.peek hfound

theorem triple_formatString : Triple (Fails T E)
    (fun stream => stream.Holds T ∧ stream.peek.kind = .formatString) (formatString enter)
    fun _ behind => behind.Holds T ∧ True := by
  refine Triple.peek fun token => ?_
  split
  · next pieces hpieces =>
    rintro stream ⟨⟨hstream, hkind⟩, rfl⟩
    have hsegments := KeepsTo.mapM fun piece hpiece =>
      keeps_segment hr he hstream.peek hkind hpieces hpiece
    exact hsegments.bind (fun _ _ => keeps_take.bind fun _ _ => keeps_return _) stream hstream
  · next error hfound =>
    rintro stream ⟨⟨hstream, hkind⟩, rfl⟩
    exact ⟨hstream, hr.format _ _ error hstream.peek hstream.peek hkind hfound⟩

omit he in
theorem triple_literal : Triple (Fails T E)
    (fun stream => stream.Holds T ∧ stream.peek.kind.isLiteral ∧
      stream.peek.kind ≠ .formatString) literal
    fun _ behind => behind.Holds T ∧ True := by
  refine Triple.peek fun token => ?_
  split
  · exact Triple.pre (keeps_take.bind fun _ _ => keeps_return _) fun _ h => h.1.1
  · next hnone =>
    rintro stream ⟨⟨hstream, hliteral, hkind⟩, rfl⟩
    exact ⟨hstream, hr.literal _ _ hstream.peek hstream.peek hliteral hkind hnone⟩

omit hr he in
theorem keeps_atCall : KeepsTo T E atCall fun _ => True :=
  keeps_peekSecond.bind fun _ _ => keeps_peekKind.bind fun _ _ => keeps_return _

theorem keeps_call : KeepsTo T E (call enter) fun _ => True :=
  (keeps_entity hr).bind fun _ _ => (keeps_isAt _).bind fun _ _ =>
    triple_ite ((keeps_callArguments hr he).bind fun _ _ => keeps_return _) (keeps_unexpected hr _)

theorem keeps_primary : KeepsTo T E (primary enter) fun _ => True := by
  refine Triple.peek fun token => ?_
  split
  · next hkind => exact (triple_formatString hr he).pre fun _ h => ⟨h.1, by rw [h.2, hkind]⟩
  · refine Triple.pre (keeps_atCall.bind fun _ _ => triple_ite ?_ ?_) fun _ h => h.1
    · exact (keeps_call hr he).bind fun _ _ => keeps_lastSpan.bind fun _ _ => keeps_return _
    · exact keeps_take.bind fun _ _ => keeps_return _
  · exact Triple.pre (keeps_take.bind fun _ _ => keeps_return _) fun _ h => h.1
  · exact Triple.pre (keeps_take.bind fun _ _ => keeps_return _) fun _ h => h.1
  · exact Triple.pre (keeps_take.bind fun _ _ => (keeps_identifier hr).bind
      fun _ _ => keeps_return _) fun _ h => h.1
  · exact Triple.pre (keeps_take.bind fun opener hopener => (he _ .listItems trivial).bind
      fun _ _ => (keeps_expectClosing hr _ hopener).bind fun _ _ => keeps_return _) fun _ h => h.1
  · exact Triple.pre (keeps_take.bind fun opener hopener => (he _ .recordItems trivial).bind
      fun _ _ => (keeps_expectClosing hr _ hopener).bind fun _ _ => keeps_return _) fun _ h => h.1
  · exact Triple.pre (keeps_take.bind fun opener hopener => keeps_skipNewlines.bind fun _ _ =>
      (keeps_expression he).bind fun _ _ => keeps_skipNewlines.bind fun _ _ =>
        (keeps_expectClosing hr _ hopener).bind fun _ _ => keeps_return _) fun _ h => h.1
  · next kind hformat _ _ _ _ _ _ _ =>
    split
    · next hliteral =>
      exact (triple_literal hr).pre fun _ h => ⟨h.1, by rw [h.2]; exact ⟨hliteral, hformat⟩⟩
    · exact Triple.pre (keeps_unexpected hr _) fun _ h => h.1

theorem keeps_suffix : KeepsTo T E (suffix enter) fun _ => True := by
  refine keeps_take.bind fun opener hopener => ?_
  split
  · refine keeps_atCall.bind fun _ _ => triple_ite ?_ ?_
    · exact (keeps_call hr he).bind fun _ _ => keeps_lastSpan.bind fun _ _ => keeps_return _
    · exact (keeps_identifier hr).bind fun _ _ => (keeps_eats _).bind fun _ _ =>
        keeps_lastSpan.bind fun _ _ => keeps_return _
  · exact (keeps_identifier hr).bind fun _ _ => keeps_return _
  · exact keeps_skipNewlines.bind fun _ _ => (keeps_expression he).bind fun _ _ =>
      keeps_skipNewlines.bind fun _ _ => (keeps_expectClosing hr _ hopener).bind fun _ _ =>
        (keeps_eats _).bind fun _ _ => keeps_lastSpan.bind fun _ _ => keeps_return _

theorem keeps_suffixed : KeepsTo T E (suffixed enter) fun _ => True :=
  (keeps_primary hr he).bind fun _ _ =>
    (KeepsTo.whenAhead (keeps_peekKind.bind fun _ _ => keeps_return _) (keeps_suffix hr he)).bind
      fun _ _ => keeps_return _

omit hr in
theorem keeps_lambda : KeepsTo T E (lambda enter) fun _ => True :=
  keeps_take.bind fun _ _ => keeps_take.bind fun _ _ => keeps_skipNewlines.bind fun _ _ =>
    (keeps_atLeast he _).bind fun _ _ => keeps_return _

omit hr he in
theorem keeps_atArrow : KeepsTo T E atArrow fun _ => True :=
  keeps_peekKind.bind fun _ _ => keeps_peekSecond.bind fun _ _ => keeps_return _

theorem keeps_operand : KeepsTo T E (operand enter) fun _ => True := by
  refine keeps_peekKind.bind fun kind _ => ?_
  split
  · exact keeps_take.bind fun _ _ => (keeps_atLeast he _).bind fun _ _ => keeps_return _
  · exact keeps_atArrow.bind fun _ _ => triple_ite (keeps_lambda he) (keeps_suffixed hr he)

omit hr he in
theorem keeps_peekOperator (least : Nat) : KeepsTo T E (peekOperator least) fun _ => True :=
  keeps_peekKind.bind fun _ _ => keeps_peekSecond.bind fun _ _ => keeps_return _

theorem keeps_link (least : Nat) : KeepsTo T E (link enter least) fun _ => True := by
  refine (keeps_peekOperator least).bind fun found _ => ?_
  split
  · exact (keeps_takeSeveral _).bind fun _ _ => keeps_skipNewlines.bind fun _ _ =>
      (keeps_atLeast he _).bind fun _ _ => keeps_return _
  · exact keeps_unexpected hr _

theorem keeps_chain (least : Nat) : KeepsTo T E (chain enter least) fun _ => True :=
  (keeps_operand hr he).bind fun _ _ =>
    (KeepsTo.whenAhead ((keeps_peekOperator least).bind fun _ _ => keeps_return _)
      (keeps_link hr he least)).bind fun _ _ => keeps_return _

/-! ### Items -/

omit hr he in
theorem keeps_anotherItem (closer : TokenKind) : KeepsTo T E (anotherItem closer) fun _ => True :=
  keeps_skipNewlines.bind fun _ _ => (keeps_eats _).bind fun _ _ =>
    triple_ite (keeps_skipNewlines.bind fun _ _ => (keeps_isAt _).bind fun _ _ =>
      (keeps_isAt _).bind fun _ _ => keeps_return _) (keeps_return _)

omit hr he in
theorem triple_items {α : Type} {item : Parse α} (h : KeepsTo T E item fun _ => True)
    (closer : TokenKind) : KeepsTo T E (items item closer) fun _ => True :=
  keeps_skipNewlines.bind fun _ _ => (keeps_isAt _).bind fun _ _ => (keeps_isAt _).bind fun _ _ =>
    triple_ite (keeps_return _) (h.series (keeps_anotherItem closer))

omit hr in
theorem keeps_spread : KeepsTo T E (spread enter) fun _ => True :=
  keeps_take.bind fun _ _ => (keeps_expression he).bind fun _ _ => keeps_return _

omit hr in
theorem keeps_listItem : KeepsTo T E (listItem enter) fun _ => True :=
  (keeps_isAt _).bind fun _ _ => triple_ite ((keeps_spread he).bind fun _ _ => keeps_return _)
    ((keeps_expression he).bind fun _ _ => keeps_return _)

omit he in
theorem keeps_recordKey : KeepsTo T E recordKey fun _ => True := by
  refine keeps_peek.bind fun token htoken => ?_
  split
  · exact keeps_take.bind fun _ _ => keeps_return _
  · next hkind =>
    split
    · exact keeps_take.bind fun _ _ => keeps_return _
    · next hnone =>
      exact keeps_fail fun stream h => hr.key token stream.peek htoken h.peek hkind hnone
  · exact keeps_unexpected hr _

theorem keeps_recordItem : KeepsTo T E (recordItem enter) fun _ => True :=
  (keeps_isAt _).bind fun _ _ => triple_ite ((keeps_spread he).bind fun _ _ => keeps_return _)
    (keeps_peek.bind fun _ _ => (keeps_recordKey hr).bind fun _ _ =>
      (keeps_expect hr _).bind fun _ _ => keeps_skipNewlines.bind fun _ _ =>
        (keeps_expression he).bind fun _ _ => keeps_return _)

theorem keeps_argumentsBehind {opener : Token} (hopener : T opener) :
    KeepsTo T E (argumentsBehind enter opener) fun _ => True :=
  (triple_items (keeps_argument he) _).bind fun _ _ =>
    (keeps_expectClosing hr _ hopener).bind fun _ _ => keeps_return _

/-! ### Statements -/

theorem keeps_letBinding : KeepsTo T E (letBinding enter) fun _ => True :=
  keeps_take.bind fun _ _ => (keeps_expect hr _).bind fun _ _ => (keeps_expect hr _).bind fun _ _ =>
    (keeps_expression he).bind fun _ _ => keeps_return _

omit hr in
theorem keeps_conditional : KeepsTo T E (conditional enter) fun _ => True :=
  keeps_take.bind fun _ _ => (keeps_expression he).bind fun _ _ =>
    (he _ .block trivial).bind fun _ _ => (keeps_eats _).bind fun _ _ => triple_ite
      ((keeps_isAt _).bind fun _ _ => triple_ite
        ((he _ .conditional trivial).bind fun _ _ => keeps_return _)
        ((he _ .block trivial).bind fun _ _ => keeps_return _))
      (keeps_return _)

theorem keeps_selection : KeepsTo T E (selection enter) fun _ => True :=
  keeps_take.bind fun _ _ => (keeps_expression he).bind fun _ _ =>
    (keeps_expect hr _).bind fun opener hopener => keeps_skipNewlines.bind fun _ _ =>
      (he _ (.arms opener) hopener).bind fun _ _ =>
        (keeps_expectClosing hr _ hopener).bind fun _ _ => keeps_return _

omit hr in
theorem keeps_assignmentStatement? : KeepsTo T E (assignmentStatement? enter) fun _ => True := by
  refine (keeps_assignment? he).bind fun found _ => ?_
  cases found <;> exact keeps_return _

theorem keeps_parenthesized? : KeepsTo T E (parenthesized? enter) fun _ => True := by
  refine (keeps_isAt _).bind fun _ _ => triple_ite ?_ (keeps_return _)
  refine (KeepsTo.attempt (Q := fun _ => True) ?_).any
  exact (keeps_callArguments hr he).bind fun _ _ => keeps_peekKind.bind fun _ _ =>
    keeps_pure (by simp)

omit hr he in
theorem keeps_commaBehind : KeepsTo T E commaBehind fun _ => True :=
  (keeps_eats _).bind fun _ _ =>
    triple_ite (keeps_skipNewlines.bind fun _ _ => keeps_return _) (keeps_return _)

omit hr in
theorem keeps_bareArguments : KeepsTo T E (bareArguments enter) fun _ => True :=
  (keeps_argument he).series keeps_commaBehind

theorem keeps_operatorArguments : KeepsTo T E (operatorArguments enter) fun _ => True := by
  refine (keeps_parenthesized? hr he).bind fun found _ => ?_
  cases found with
  | some arguments => exact keeps_return _
  | none =>
    refine keeps_peekKind.bind fun first _ => triple_ite (keeps_return _) (triple_ite ?_ ?_)
    · refine KeepsTo.bind (Q := fun _ => True) ?_ fun _ _ => keeps_return _
      exact (KeepsTo.attempt (Q := fun _ => True) (((keeps_bareArguments he).map _).mono
        (by simp))).any
    · exact (keeps_bareArguments he).bind fun _ _ => keeps_return _

theorem keeps_operatorBlock : KeepsTo T E (operatorBlock enter) fun _ => True := by
  refine (keeps_isAt _).bind fun _ _ => triple_ite ?_ (keeps_return _)
  refine keeps_take.bind fun opener hopener => keeps_skipNewlines.bind fun _ _ =>
    (he _ (.pipeline opener) hopener).bind fun _ _ =>
      (keeps_expectClosing hr _ hopener).bind fun _ _ => keeps_commaBehind.bind fun _ _ =>
        triple_ite ?_ (keeps_return _)
  refine (keeps_parenthesized? hr he).bind fun found _ => ?_
  cases found with
  | some arguments => exact keeps_return _
  | none => exact (keeps_bareArguments he).bind fun _ _ => keeps_return _

theorem keeps_invocation : KeepsTo T E (invocation enter) fun _ => True :=
  (keeps_entity hr).bind fun _ _ => (keeps_operatorArguments hr he).bind fun _ _ =>
    (keeps_operatorBlock hr he).bind fun _ _ => keeps_lastSpan.bind fun _ _ => keeps_return _

theorem keeps_assignmentOrInvocation :
    KeepsTo T E (assignmentOrInvocation enter) fun _ => True := by
  refine (keeps_assignmentStatement? he).bind fun found _ => ?_
  cases found with
  | some statement => exact keeps_return _
  | none =>
    refine (keeps_isAt _).bind fun _ _ => triple_ite (keeps_invocation hr he) ?_
    refine keeps_selector?.bind fun found _ => ?_
    cases found <;> exact keeps_unexpected hr _

theorem keeps_statement : KeepsTo T E (statement enter) fun _ => True := by
  refine keeps_peekKind.bind fun kind _ => ?_
  split
  · exact keeps_letBinding hr he
  · exact (keeps_conditional he).bind fun _ _ => keeps_return _
  · exact keeps_selection hr he
  · exact keeps_assignmentOrInvocation hr he
  · exact keeps_assignmentOrInvocation hr he
  · exact keeps_assignmentOrInvocation hr he
  · exact keeps_unexpected hr _

omit he in
theorem keeps_anotherStatement (closer : TokenKind) :
    KeepsTo T E (anotherStatement closer) fun _ => True :=
  (keeps_skip _).bind fun _ _ => (keeps_isAt _).bind fun _ _ =>
    triple_ite (keeps_return _) (triple_ite (keeps_return _) (keeps_unexpected hr _))

theorem keeps_pipeline : KeepsTo T E (pipeline enter) fun _ => True := by
  refine ((keeps_statement hr he).series (keeps_anotherStatement hr _)).bind fun statements _ => ?_
  split
  · exact keeps_return _
  · exact keeps_unexpected hr _

omit he in
theorem keeps_closing {α : Type} {rule : Parse α} {opener : Token} (hopener : T opener)
    (h : KeepsTo T E rule fun _ => True) : KeepsTo T E (closing opener rule) fun _ => True :=
  Triple.closing h fun _ behind hfails _ =>
    ⟨hfails.1, hr.unclosed behind.peek opener hfails.1.peek hopener⟩

theorem keeps_pipelineBehind {opener : Token} (hopener : T opener) :
    KeepsTo T E (pipelineBehind enter opener) fun _ => True :=
  (keeps_isAt _).bind fun _ _ =>
    triple_ite (keeps_unclosed hr hopener) (keeps_closing hr hopener (keeps_pipeline hr he))

theorem keeps_block : KeepsTo T E (block enter) fun _ => True := by
  refine (keeps_expect hr _).bind fun opener hopener => keeps_skipNewlines.bind fun _ _ =>
    (keeps_isAt _).bind fun _ _ => ?_
  have hclose : ∀ body : Option Pipeline, KeepsTo T E (do
      let closer ← expectClosing .rBrace opener
      return Block.mk body (opener.span.through closer.span)) fun _ => True :=
    fun _ => (keeps_expectClosing hr _ hopener).bind fun _ _ => keeps_return _
  exact triple_ite ((keeps_return none).bind fun body _ => hclose body)
    (((keeps_pipelineBehind hr he hopener).map some).bind fun body _ => hclose body)

theorem keeps_pattern : KeepsTo T E (pattern enter) fun _ => True :=
  keeps_atArrow.bind fun _ _ => triple_ite (keeps_primary hr he) (keeps_expression he)

theorem keeps_arm : KeepsTo T E (arm enter) fun _ => True :=
  ((keeps_pattern hr he).series keeps_commaBehind).bind fun _ _ =>
    (keeps_expect hr _).bind fun _ _ => (keeps_expect hr _).bind fun opener hopener =>
      keeps_skipNewlines.bind fun _ _ => (he _ (.pipeline opener) hopener).bind fun _ _ =>
        (keeps_expectClosing hr _ hopener).bind fun _ _ => keeps_return _

omit he in
theorem keeps_atArm {opener : Token} (hopener : T opener) :
    KeepsTo T E (atArm opener) fun _ => True := by
  refine keeps_peekKind.bind fun kind _ => ?_
  split
  · exact keeps_return _
  · exact keeps_unclosed hr hopener
  · exact keeps_return _

theorem keeps_armsBehind {opener : Token} (hopener : T opener) :
    KeepsTo T E (armsBehind enter opener) fun _ => True :=
  (keeps_atArm hr hopener).bind fun _ _ => triple_ite
    ((keeps_arm hr he).series ((keeps_skip _).bind fun _ _ => keeps_atArm hr hopener))
    (keeps_return _)

/-- If nested parts keep to streams and errors, so does what they are nested in. -/
theorem entersKeeping_rule : EntersKeeping T E fun _ goal => goal.rule enter := by
  intro α goal hopens
  cases goal with
  | expression least => exact keeps_chain hr he least
  | listItems => exact triple_items (keeps_listItem he) _
  | recordItems => exact triple_items (keeps_recordItem hr he) _
  | arguments => exact keeps_argumentsBehind hr he hopens
  | conditional => exact keeps_conditional he
  | block => exact keeps_block hr he
  | arms => exact keeps_armsBehind hr he hopens
  | pipeline => exact keeps_pipelineBehind hr he hopens

end

/-- Nested parts keep to streams and errors, however deep they may be nested. -/
theorem entersKeeping_enterTo (limit depth : Nat) : EntersKeeping T E (enterTo limit depth) := by
  induction depth with
  | zero => exact fun _ _ _ => keeps_fail fun stream h => hr.nesting stream.peek limit h.peek
  | succ depth ih => exact entersKeeping_rule hr ih

/-! ### Programs -/

omit hr in
theorem keeps_frontmatter? : KeepsTo T E frontmatter? fun _ => True := by
  refine keeps_skipNewlines.bind fun _ _ => (keeps_isAt _).bind fun _ _ =>
    triple_ite ?_ (keeps_return _)
  refine KeepsTo.bind (Q := fun _ => True) ?_ fun _ _ =>
    keeps_skipNewlines.bind fun _ _ => keeps_return _
  exact keeps_take.bind fun _ _ => (keeps_eat _).bind fun _ _ => (keeps_eat _).bind fun _ _ =>
    keeps_lastSpan.bind fun _ _ => keeps_return _

end Grammar

open Grammar

/-- The error of tokens that are no program is at one of them. -/
theorem Program.error_of_ofTokens {T : Token → Prop} {E : SyntaxError → Prop} (hr : Reports T E)
    {limit : Nat} {tokens : List Token} (htokens : (TokenStream.ofTokens tokens).Holds T)
    {rejection : Rejection} (h : ofTokens limit tokens = .error rejection) :
    E rejection.error := by
  have hs := entersKeeping_enterTo hr limit limit
  obtain ⟨-, -, herror⟩ := error_of_triple (keeps_frontmatter?.post fun _ _ h => h.1)
    ((keeps_statement hr hs).post fun _ _ h => h.1)
    ((keeps_anotherStatement hr .eof).post fun _ _ h => h.1) htokens h
  exact herror

end PipelineLang
