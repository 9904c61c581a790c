import PipelineLang.Proofs.Grammar.ExpressionSoundness
import PipelineLang.Proofs.Grammar.Tracking
import PipelineLang.Proofs.Token.Place

/-!
# The grammar tracks itself

If the nested parts that one way to read them yields are tracked by another way, then the
rules that are built on the one are tracked by the same rules built on the other.

## Main definitions

- `Goal.moved` — the same part further on
- `EntersTracking` — one way to read nested parts tracks another one

## Main results

- `Grammar.entersTracking_rule` — if nested parts are tracked, and invocations are, then so is
  what they are nested in
- `Grammar.tracks_statementsToEnd` — so are the statements of a program
- `Grammar.entersTracking_moved` — a rule does the same wherever its tokens stand

## Design notes

Only an invocation gives up a reading that has failed, so only there a rule that is lost could
go on unnoticed. This is why invocations are left to whoever says what is lost.
-/

namespace PipelineLang

open Parse

/-! ### Moved parts -/

/-- The same part, told of the same bracket further on. -/
def Goal.moved (shift : Shift) : {α : Type} → Goal α → Goal α
  | _, .arguments opener => .arguments (PipelineLang.moved shift opener)
  | _, .arms opener => .arms (PipelineLang.moved shift opener)
  | _, .pipeline opener => .pipeline (PipelineLang.moved shift opener)
  | _, goal => goal

/-- The trees of a part have places. -/
@[reducible] def Goal.movable : {α : Type} → Goal α → Movable α
  | _, .expression _ => inferInstance
  | _, .listItems => inferInstance
  | _, .recordItems => inferInstance
  | _, .arguments _ => inferInstance
  | _, .conditional => inferInstance
  | _, .block => inferInstance
  | _, .arms _ => inferInstance
  | _, .pipeline _ => inferInstance

/-- Two ways to read nested parts, one of which tracks the other. -/
def EntersTracking (lost : SyntaxError → Prop) (shift : Shift) (enter enter' : Enter) : Prop :=
  ∀ (α : Type) (goal : Goal α),
    @Tracks α goal.movable lost shift (enter α goal) (enter' α (goal.moved shift))

theorem TokenStream.significant_moved (shift : Shift) (tokens : List Token) :
    significant (moved shift tokens) = moved shift (significant tokens) := by
  rw [moved_list, moved_list, significant, significant, List.filter_map]
  rfl

theorem TokenStream.ofTokens_moved {shift : Shift} {tokens : List Token}
    (h : ∃ token ∈ tokens, token.kind = .eof) :
    TokenStream.ofTokens (moved shift tokens) = moved shift (TokenStream.ofTokens tokens) := by
  have hrest : ∀ tokens : List Token, (moved shift tokens).takeWhile (·.kind != .eof) =
      moved shift (tokens.takeWhile (·.kind != .eof)) := by
    intro tokens
    rw [moved_list, moved_list, List.takeWhile_map]
    rfl
  have hfind : ∀ tokens : List Token, (moved shift tokens).find? (·.kind == .eof) =
      moved shift (tokens.find? (·.kind == .eof)) := by
    intro tokens
    rw [moved_list, moved_option, List.find?_map]
    rfl
  obtain ⟨token, htoken, hkind⟩ := h
  have hfound : ∃ stop, (significant tokens).find? (·.kind == .eof) = some stop := by
    rw [← Option.isSome_iff_exists, List.find?_isSome]
    refine ⟨token, List.mem_filter.mpr ⟨htoken, ?_⟩, by simp [hkind]⟩
    rw [hkind]
    rfl
  obtain ⟨stop, hstop⟩ := hfound
  simp only [ofTokens, significant_moved, hrest, hfind, hstop]
  rfl

theorem Scanner.exists_eof_of_tokens? {scanner : Scanner} {tokens : List Token}
    (hfinished : scanner.finished = false) (h : scanner.tokens? = .ok tokens) :
    ∃ token ∈ tokens, token.kind = .eof := by
  obtain ⟨others, stop, rfl, hstop, -⟩ := (reads_of_tokens? hfinished h).eof
  exact ⟨stop, by simp, hstop⟩

namespace Grammar

variable {lost : SyntaxError → Prop} {shift : Shift}

/-! ### Names -/

theorem tracks_identifier : Tracks lost shift identifier identifier :=
  (tracks_expect _).bind fun _ => tracks_return rfl

theorem tracks_entity : Tracks lost shift entity entity := by
  intro stream hend
  refine (tracks_identifier.series (tracks_eats _) stream hend).bind_of
    fun segments behind hrun hbehind => ?_
  obtain ⟨first, rest, rfl⟩ := List.exists_cons_of_ne_nil (series_ne_nil hrun)
  have hnamed : Tracks lost shift
      (do return Entity.mk (first :: rest) (first.span.through (← lastSpan)))
      (do
        let stop ← lastSpan
        return Entity.mk (moved shift (first :: rest)) ((moved shift first).span.through stop)) :=
    tracks_lastSpan.bind fun _ => tracks_return rfl
  exact hnamed behind (by rwa [hbehind])

theorem tracks_atFieldStep : Tracks lost shift atFieldStep atFieldStep :=
  tracks_peekKind.bind fun _ => tracks_peekSecond.bind fun _ => tracks_return rfl

theorem tracks_anotherFieldStep : Tracks lost shift anotherFieldStep anotherFieldStep :=
  tracks_atFieldStep.bind fun _ =>
    tracks_ite (tracks_take.bind fun _ => tracks_return rfl) (tracks_return rfl)

theorem tracks_fieldSegment : Tracks lost shift fieldSegment fieldSegment :=
  tracks_take.bind fun _ => (tracks_eats _).bind fun _ => tracks_return rfl

theorem tracks_fieldPath (start : Span) (rooted : Bool) :
    Tracks lost shift (fieldPath start rooted) (fieldPath (moved shift start) rooted) :=
  (tracks_fieldSegment.series tracks_anotherFieldStep).bind fun _ =>
    tracks_lastSpan.bind fun _ => tracks_return rfl

theorem tracks_selector? : Tracks lost shift selector? selector? := by
  refine Tracks.commit (tracks_peek.bind fun first => ?_)
  rw [Token.kind_moved]
  split
  · refine tracks_take.bind fun _ => (tracks_eat _).bind fun name => ?_
    cases name <;> exact tracks_return rfl
  · refine tracks_take.bind fun _ => tracks_anotherFieldStep.bind fun _ => tracks_ite ?_ ?_
    · exact (tracks_fieldPath _ _).bind fun _ => tracks_return rfl
    · exact tracks_return rfl
  · exact (tracks_fieldPath _ _).bind fun _ => tracks_return rfl
  · exact tracks_return rfl

theorem tracks_atCall : Tracks lost shift atCall atCall :=
  tracks_peekSecond.bind fun _ => tracks_peekKind.bind fun _ => tracks_return rfl

theorem tracks_atArrow : Tracks lost shift atArrow atArrow :=
  tracks_peekKind.bind fun _ => tracks_peekSecond.bind fun _ => tracks_return rfl

theorem tracks_peekOperator (least : Nat) :
    Tracks lost shift (peekOperator least) (peekOperator least) := by
  have hsame : ∀ found : Option (BinaryOp × Nat), moved shift found = found := by
    rintro (_ | _) <;> rfl
  exact tracks_peekKind.bind fun _ => tracks_peekSecond.bind fun _ => tracks_return (hsame _).symm

section

variable {enter enter' : Enter} (he : EntersTracking lost shift enter enter')

include he

/-! ### Expressions -/

theorem tracks_atLeast (least : Nat) :
    Tracks lost shift (enter _ (.expression least)) (enter' _ (.expression least)) :=
  he _ (.expression least)

theorem tracks_expression : Tracks lost shift (expression enter) (expression enter') :=
  tracks_atLeast he 0

theorem tracks_assignment? : Tracks lost shift (assignment? enter) (assignment? enter') := by
  refine Tracks.bind ?_ fun target => ?_
  · refine Tracks.commit (tracks_selector?.bind fun found => ?_)
    cases found with
    | none => exact tracks_return rfl
    | some target =>
      exact (tracks_eats _).bind fun _ => tracks_ite (tracks_return rfl) (tracks_return rfl)
  · cases target with
    | none => exact tracks_return rfl
    | some target => exact (tracks_expression he).bind fun _ => tracks_return rfl

theorem tracks_argument : Tracks lost shift (argument enter) (argument enter') := by
  refine (tracks_assignment? he).bind fun found => ?_
  cases found with
  | none => exact (tracks_expression he).bind fun _ => tracks_return rfl
  | some assignment => exact tracks_return (by rw [Selector.span_moved, Expr.span_moved]; rfl)

theorem tracks_callArguments : Tracks lost shift (callArguments enter) (callArguments enter') :=
  (tracks_expect _).bind fun opener => he _ (.arguments opener)

theorem tracks_call : Tracks lost shift (call enter) (call enter') :=
  tracks_entity.bind fun _ => (tracks_isAt _).bind fun _ =>
    tracks_ite ((tracks_callArguments he).bind fun _ => tracks_return rfl) (tracks_unexpected _)

theorem tracks_replacement : Tracks lost shift (replacement enter) (replacement enter') :=
  tracks_skipNewlines.bind fun _ => (tracks_expression he).bind fun _ =>
    tracks_skipNewlines.bind fun _ => (tracks_isAt _).bind fun _ =>
      tracks_ite (tracks_return rfl) (tracks_unexpected _)

theorem tracks_segment (piece : FormatPiece) :
    Tracks lost shift (segment enter piece) (segment enter' (moved shift piece)) := by
  cases piece with
  | text => exact tracks_return rfl
  | replacement inner innerSpan span =>
    have htokens : (Scanner.within inner (moved shift innerSpan)).tokens? =
        moved shift (Scanner.within inner innerSpan).tokens? :=
      Scanner.tokens?_moved (Scanner.within inner innerSpan)
    show Tracks lost shift (segment enter (.replacement inner innerSpan span))
      (segment enter' (.replacement inner (moved shift innerSpan) (moved shift span)))
    rw [segment, segment, htokens]
    cases hfound : (Scanner.within inner innerSpan).tokens? with
    | ok tokens =>
      show Tracks lost shift _ (do
        let value ← Parse.within (.ofTokens (moved shift tokens)) (replacement enter')
        return Segment.replacement value (moved shift span))
      rw [TokenStream.ofTokens_moved (Scanner.exists_eof_of_tokens? rfl hfound)]
      exact ((tracks_replacement he).within (TokenStream.kind_stop_ofTokens tokens)).bind
        fun _ => tracks_return rfl
    | error error => exact tracks_fail fun _ => rfl

theorem tracks_formatString : Tracks lost shift (formatString enter) (formatString enter') := by
  refine tracks_peek.bind fun token => ?_
  rw [Token.formatPieces_moved]
  cases token.formatPieces with
  | ok pieces =>
    refine (Tracks.mapM fun piece _ => tracks_segment he piece).bind fun segments =>
      tracks_take.bind fun _ => tracks_return ?_
    show _ = Expr.shifted shift _
    rw [Expr.shifted, Segment.allShifted_eq]
    rfl
  | error error => exact tracks_fail fun _ => rfl

omit he in
theorem tracks_literal : Tracks lost shift literal literal := by
  refine tracks_peek.bind fun token => ?_
  rw [Token.kind_moved, Token.text_moved]
  split
  · exact tracks_take.bind fun _ => tracks_return rfl
  · exact tracks_fail fun _ => rfl

omit he in
theorem nameOrPlaceholder_moved (token : Token) :
    nameOrPlaceholder (moved shift token) = moved shift (nameOrPlaceholder token) := by
  rw [nameOrPlaceholder, nameOrPlaceholder, Token.text_moved]
  split <;> rfl

theorem tracks_primary : Tracks lost shift (primary enter) (primary enter') := by
  refine tracks_peek.bind fun token => ?_
  rw [Token.kind_moved]
  split
  · exact tracks_formatString he
  · refine tracks_atCall.bind fun _ => tracks_ite ?_ ?_
    · refine (tracks_call he).bind fun found => tracks_lastSpan.bind fun _ => tracks_return ?_
      show _ = Expr.shifted shift _
      rw [Expr.shifted, Argument.allShifted_eq]
      rfl
    · exact tracks_take.bind fun token => tracks_return (nameOrPlaceholder_moved token)
  · exact tracks_take.bind fun _ => tracks_return rfl
  · exact tracks_take.bind fun _ => tracks_return rfl
  · exact tracks_take.bind fun _ => tracks_identifier.bind fun _ => tracks_return rfl
  · refine tracks_take.bind fun opener => (he _ .listItems).bind fun _ =>
      (tracks_expectClosing _ opener).bind fun _ => tracks_return ?_
    show _ = Expr.shifted shift _
    rw [Expr.shifted, ListItem.allShifted_eq]
    rfl
  · refine tracks_take.bind fun opener => (he _ .recordItems).bind fun _ =>
      (tracks_expectClosing _ opener).bind fun _ => tracks_return ?_
    show _ = Expr.shifted shift _
    rw [Expr.shifted, RecordItem.allShifted_eq]
    rfl
  · exact tracks_take.bind fun opener => tracks_skipNewlines.bind fun _ =>
      (tracks_expression he).bind fun _ => tracks_skipNewlines.bind fun _ =>
        (tracks_expectClosing _ opener).bind fun _ => tracks_return rfl
  · exact tracks_ite tracks_literal (tracks_unexpected _)

omit he in
theorem tracks_atSuffix : Tracks lost shift atSuffix atSuffix :=
  tracks_peekKind.bind fun _ => tracks_return rfl

theorem tracks_suffix : Tracks lost shift (suffix enter) (suffix enter') := by
  refine tracks_take.bind fun opener => ?_
  rw [Token.kind_moved]
  split
  · refine tracks_atCall.bind fun _ => tracks_ite ?_ ?_
    · exact (tracks_call he).bind fun _ => tracks_lastSpan.bind fun _ => tracks_return rfl
    · exact tracks_identifier.bind fun _ => (tracks_eats _).bind fun _ =>
        tracks_lastSpan.bind fun _ => tracks_return rfl
  · exact tracks_identifier.bind fun _ => tracks_return rfl
  · exact tracks_skipNewlines.bind fun _ => (tracks_expression he).bind fun _ =>
      tracks_skipNewlines.bind fun _ => (tracks_expectClosing _ opener).bind fun _ =>
        (tracks_eats _).bind fun _ => tracks_lastSpan.bind fun _ => tracks_return rfl

omit he in
theorem apply_moved (receiver : Expr) (suffix : Suffix) :
    (moved shift suffix).apply (moved shift receiver) = moved shift (suffix.apply receiver) := by
  cases suffix with
  | call function arguments stop =>
    show _ = Expr.shifted shift (.methodCall _ _ _ _)
    rw [Expr.shifted, Argument.allShifted_eq]
    show Expr.methodCall _ _ _ ((moved shift receiver).span.through _) = _
    rw [Expr.span_moved]
    rfl
  | member name mark stop =>
    show Expr.member _ _ _ ((moved shift receiver).span.through _) = _
    rw [Expr.span_moved]
    rfl
  | index key optional stop =>
    show Expr.index _ _ _ ((moved shift receiver).span.through _) = _
    rw [Expr.span_moved]
    rfl

omit he in
theorem foldl_apply_moved (suffixes : List Suffix) (receiver : Expr) :
    (moved shift suffixes).foldl Suffix.apply (moved shift receiver) =
      moved shift (suffixes.foldl Suffix.apply receiver) := by
  induction suffixes generalizing receiver with
  | nil => rfl
  | cons suffix rest ih => rw [moved_cons, List.foldl_cons, apply_moved, ih, List.foldl_cons]

theorem tracks_suffixed : Tracks lost shift (suffixed enter) (suffixed enter') :=
  (tracks_primary he).bind fun receiver => (tracks_atSuffix.whenAhead (tracks_suffix he)).bind
    fun suffixes => tracks_return (foldl_apply_moved suffixes receiver)

theorem tracks_lambda : Tracks lost shift (lambda enter) (lambda enter') :=
  tracks_take.bind fun _ => tracks_take.bind fun _ => tracks_skipNewlines.bind fun _ =>
    (tracks_atLeast he _).bind fun _ => tracks_return (by rw [Expr.span_moved]; rfl)

theorem tracks_operand : Tracks lost shift (operand enter) (operand enter') := by
  refine tracks_peekKind.bind fun kind => ?_
  rw [moved_kind]
  split
  · exact tracks_take.bind fun _ => (tracks_atLeast he _).bind fun _ =>
      tracks_return (by rw [Expr.span_moved]; rfl)
  · exact tracks_atArrow.bind fun _ => tracks_ite (tracks_lambda he) (tracks_suffixed he)

theorem tracks_link (least : Nat) : Tracks lost shift (link enter least) (link enter' least) := by
  refine (tracks_peekOperator least).bind fun found => ?_
  cases found with
  | none => exact tracks_unexpected _
  | some found =>
    exact (tracks_takeSeveral _).bind fun _ => tracks_skipNewlines.bind fun _ =>
      (tracks_atLeast he _).bind fun _ => tracks_return rfl

omit he in
theorem foldl_join_moved (links : List (BinaryOp × Expr)) (left : Expr) :
    (moved shift links).foldl join (moved shift left) = moved shift (links.foldl join left) := by
  have hjoin : ∀ (left : Expr) (link : BinaryOp × Expr),
      join (moved shift left) (moved shift link) = moved shift (join left link) := by
    intro left link
    show Expr.binary _ _ _ ((moved shift left).span.through (moved shift link.2).span) = _
    rw [Expr.span_moved, Expr.span_moved]
    rfl
  induction links generalizing left with
  | nil => rfl
  | cons link rest ih => rw [moved_cons, List.foldl_cons, hjoin, ih, List.foldl_cons]

theorem tracks_chain (least : Nat) :
    Tracks lost shift (chain enter least) (chain enter' least) := by
  have hahead : Tracks lost shift (do return (← peekOperator least).isSome)
      (do return (← peekOperator least).isSome) :=
    (tracks_peekOperator least).bind fun found => tracks_return (by cases found <;> rfl)
  exact (tracks_operand he).bind fun first => (hahead.whenAhead (tracks_link he least)).bind
    fun links => tracks_return (foldl_join_moved links first)

/-! ### Items -/

omit he in
theorem tracks_anotherItem (closer : TokenKind) :
    Tracks lost shift (anotherItem closer) (anotherItem closer) :=
  tracks_skipNewlines.bind fun _ => (tracks_eats _).bind fun _ =>
    tracks_ite (tracks_skipNewlines.bind fun _ => (tracks_isAt _).bind fun _ =>
      (tracks_isAt _).bind fun _ => tracks_return rfl) (tracks_return rfl)

omit he in
theorem tracks_items {α : Type} [Movable α] {item item' : Parse α}
    (h : Tracks lost shift item item')
    (closer : TokenKind) : Tracks lost shift (items item closer) (items item' closer) :=
  tracks_skipNewlines.bind fun _ => (tracks_isAt _).bind fun _ => (tracks_isAt _).bind fun _ =>
    tracks_ite (tracks_return rfl) (h.series (tracks_anotherItem closer))

theorem tracks_spread : Tracks lost shift (spread enter) (spread enter') :=
  tracks_take.bind fun _ => (tracks_expression he).bind fun _ =>
    tracks_return (by rw [Expr.span_moved]; rfl)

theorem tracks_listItem : Tracks lost shift (listItem enter) (listItem enter') :=
  (tracks_isAt _).bind fun _ => tracks_ite ((tracks_spread he).bind fun _ => tracks_return rfl)
    ((tracks_expression he).bind fun _ => tracks_return rfl)

omit he in
theorem tracks_recordKey : Tracks lost shift recordKey recordKey := by
  refine tracks_peek.bind fun token => ?_
  rw [Token.kind_moved, Token.text_moved]
  split
  · exact tracks_take.bind fun _ => tracks_return rfl
  · split
    · exact tracks_take.bind fun _ => tracks_return rfl
    · exact tracks_fail fun _ => rfl
  · exact tracks_unexpected _

theorem tracks_recordItem : Tracks lost shift (recordItem enter) (recordItem enter') :=
  (tracks_isAt _).bind fun _ => tracks_ite ((tracks_spread he).bind fun _ => tracks_return rfl)
    (tracks_peek.bind fun _ => tracks_recordKey.bind fun _ => (tracks_expect _).bind fun _ =>
      tracks_skipNewlines.bind fun _ => (tracks_expression he).bind fun _ =>
        tracks_return (by rw [Expr.span_moved]; rfl))

theorem tracks_argumentsBehind (opener : Token) :
    Tracks lost shift (argumentsBehind enter opener)
      (argumentsBehind enter' (moved shift opener)) :=
  (tracks_items (tracks_argument he) _).bind fun _ =>
    (tracks_expectClosing _ opener).bind fun _ => tracks_return rfl

/-! ### Statements -/

theorem tracks_letBinding : Tracks lost shift (letBinding enter) (letBinding enter') :=
  tracks_take.bind fun _ => (tracks_expect _).bind fun _ => (tracks_expect _).bind fun _ =>
    (tracks_expression he).bind fun _ => tracks_return (by rw [Expr.span_moved]; rfl)

theorem tracks_conditional : Tracks lost shift (conditional enter) (conditional enter') :=
  tracks_take.bind fun _ => (tracks_expression he).bind fun _ =>
    (he _ .block).bind fun _ => (tracks_eats _).bind fun _ => tracks_ite
      ((tracks_isAt _).bind fun _ => tracks_ite
        ((he _ .conditional).bind fun _ =>
          tracks_return (by rw [Conditional.span_moved]; rfl))
        ((he _ .block).bind fun _ => tracks_return (by rw [Block.span_moved]; rfl)))
      (tracks_return (by rw [Block.span_moved]; rfl))

theorem tracks_selection : Tracks lost shift (selection enter) (selection enter') :=
  tracks_take.bind fun _ => (tracks_expression he).bind fun _ =>
    (tracks_expect _).bind fun opener => tracks_skipNewlines.bind fun _ =>
      (he _ (.arms opener)).bind fun _ => (tracks_expectClosing _ opener).bind fun _ =>
        tracks_return (by
          show _ = Statement.shifted shift _
          rw [Statement.shifted, Arm.allShifted_eq]
          rfl)

theorem tracks_assignmentStatement? :
    Tracks lost shift (assignmentStatement? enter) (assignmentStatement? enter') := by
  refine (tracks_assignment? he).bind fun found => ?_
  cases found with
  | none => exact tracks_return rfl
  | some assignment => exact tracks_return (by rw [Selector.span_moved, Expr.span_moved]; rfl)

omit he in
theorem tracks_commaBehind : Tracks lost shift commaBehind commaBehind :=
  (tracks_eats _).bind fun _ =>
    tracks_ite (tracks_skipNewlines.bind fun _ => tracks_return rfl) (tracks_return rfl)

theorem tracks_bareArguments : Tracks lost shift (bareArguments enter) (bareArguments enter') :=
  (tracks_argument he).series tracks_commaBehind

/-! ### Invocations -/

omit he in
theorem parenthesized?_of_ne_lParen {stream : TokenStream} (h : stream.peek.kind ≠ .lParen) :
    (parenthesized? enter).run stream = .ok none stream := by
  have hat : (isAt .lParen).run stream = .ok false stream := by
    show EStateM.Result.ok (stream.peek.kind == .lParen) stream = _
    rw [beq_false_of_ne h]
  rw [parenthesized?, bind_eq hat]
  rfl

omit he in
theorem stream_of_parenthesized? {stream behind : TokenStream}
    (h : (parenthesized? enter).run stream = .ok none behind) : behind = stream := by
  by_cases hkind : stream.peek.kind = .lParen
  · have hat : (isAt .lParen).run stream = .ok true stream := by
      show EStateM.Result.ok (stream.peek.kind == .lParen) stream = _
      rw [beq_iff_eq.mpr hkind]
    rw [parenthesized?, bind_eq hat, if_pos rfl] at h
    obtain ⟨a, hfound, -⟩ | ⟨-, hbehind, -⟩ := attempt_ok h
    · simp at hfound
    · exact hbehind
  · rw [parenthesized?_of_ne_lParen hkind] at h
    exact (pure_ok h).2

/-- Arguments in parentheses are tracked unless they are lost while the other ones are found. -/
theorem tracks_parenthesized? {stream : TokenStream} (hend : stream.stop.kind = .eof) :
    TracksAt lost shift (parenthesized? enter) (parenthesized? enter') stream ∨
    stream.peek.kind = .lParen ∧ Loses lost (callArguments enter) stream ∧
      (parenthesized? enter).run stream = .ok none stream := by
  by_cases hkind : stream.peek.kind = .lParen
  · have hrule : Tracks lost shift
        (do let arguments ← callArguments enter
            return if invocationClosers.contains (← peekKind) then some arguments else none)
        (do let arguments ← callArguments enter'
            return if invocationClosers.contains (← peekKind) then some arguments else none) :=
      (tracks_callArguments he).bind fun arguments => tracks_peekKind.bind fun kind =>
        tracks_return (by rw [moved_kind]; split <;> rfl)
    have hat : ∀ {stream : TokenStream}, stream.peek.kind = .lParen →
        (isAt .lParen).run stream = .ok true stream := by
      intro stream hkind
      show EStateM.Result.ok (stream.peek.kind == .lParen) stream = _
      rw [beq_iff_eq.mpr hkind]
    have hkind' : (moved shift stream).peek.kind = .lParen := by simpa using hkind
    rw [TracksAt, Loses, parenthesized?, parenthesized?, bind_eq (hat hkind),
      bind_eq (hat hkind'), if_pos rfl, if_pos rfl]
    obtain hsame | ⟨hloses, -⟩ := hrule.attempt hend
    · exact .inl hsame
    · refine .inr ⟨hkind, ?_, hloses.attempt⟩
      obtain hcall | ⟨arguments, middle, -, error, behind, hrun, -⟩ := hloses.of_bind
      · exact hcall
      · cases hrun
  · exact .inl (tracksAt_ok (parenthesized?_of_ne_lParen hkind)
      (parenthesized?_of_ne_lParen (by simpa using hkind)) rfl)

/-- If arguments in parentheses are lost, the first of them is so without the parentheses. -/
def LosesBare (lost : SyntaxError → Prop) (enter : Enter) : Prop :=
  ∀ stream : TokenStream, stream.stop.kind = .eof → stream.peek.kind = .lParen →
    Loses lost (callArguments enter) stream → Loses lost (argument enter) stream

/-- If arguments that start with a record are lost, so is a block in their place. -/
def LosesBlock (lost : SyntaxError → Prop) (shift : Shift) (enter enter' : Enter) : Prop :=
  ∀ stream : TokenStream, stream.stop.kind = .eof → stream.peek.kind = .lBrace →
    Loses lost (bareArguments enter) stream →
    (∃ a behind, (bareArguments enter').run (moved shift stream) = .ok a behind) →
    Loses lost (operatorBlock enter) stream

section

variable {β : Type} [Movable β] (hbare : LosesBare lost enter)

include hbare

/-- Arguments in parentheses, or else what comes in their place. -/
theorem tracksAt_parenthesized?_bind {next next' : Option (List Argument) → Parse β}
    {stream : TokenStream} (hend : stream.stop.kind = .eof)
    (hsome : ∀ arguments, Tracks lost shift (next (some arguments))
      (next' (some (moved shift arguments))))
    (hnone : TracksAt lost shift (next none) (next' none) stream)
    (hlost : stream.peek.kind = .lParen → Loses lost (argument enter) stream →
      Loses lost (next none) stream) :
    TracksAt lost shift (parenthesized? enter >>= next) (parenthesized? enter' >>= next')
      stream := by
  obtain hsame | ⟨hkind, hloses, hrun⟩ := tracks_parenthesized? he hend
  · refine hsame.bind_of fun found behind hrun hbehind => ?_
    cases found with
    | some arguments => exact hsome arguments behind (by rwa [hbehind])
    | none =>
      obtain rfl := stream_of_parenthesized? hrun
      exact hnone
  · refine .inl ?_
    rw [Loses, bind_eq hrun]
    exact hlost hkind (hbare stream hend hkind hloses)

/-- The arguments of an invocation are tracked unless a record is lost. -/
theorem tracks_operatorArguments {stream : TokenStream} (hend : stream.stop.kind = .eof) :
    TracksAt lost shift (operatorArguments enter) (operatorArguments enter') stream ∨
    stream.peek.kind = .lBrace ∧ Loses lost (bareArguments enter) stream ∧
      (∃ a behind, (bareArguments enter').run (moved shift stream) = .ok a behind) ∧
      (operatorArguments enter).run stream = .ok ([], false) stream := by
  have hpeek : ∀ stream : TokenStream, peekKind.run stream = .ok stream.peek.kind stream :=
    fun _ => rfl
  have hbehind : Tracks lost shift (do return (← bareArguments enter, false))
      (do return (← bareArguments enter', false)) :=
    (tracks_bareArguments he).bind fun _ => tracks_return rfl
  by_cases hkind : stream.peek.kind = .lBrace
  · have hkind' : (moved shift stream).peek.kind = .lBrace := by simpa using hkind
    have hrun : ∀ {enter : Enter} {stream : TokenStream}, stream.peek.kind = .lBrace →
        (operatorArguments enter).run stream =
          (do return ((← attempt (some <$> bareArguments enter)).getD [], false) :
            Parse (List Argument × Bool)).run stream := by
      intro enter stream hkind
      rw [operatorArguments, bind_eq (parenthesized?_of_ne_lParen (by simp [hkind]))]
      dsimp only
      rw [bind_eq (hpeek _), hkind]
      rfl
    have hsome : Tracks lost shift (some <$> bareArguments enter) (some <$> bareArguments enter') :=
      (tracks_bareArguments he).map fun _ => rfl
    rw [TracksAt, Loses, hrun hkind, hrun hkind']
    obtain hsame | ⟨hloses, a, behind', hfound⟩ := hsome.attempt hend
    · exact .inl (hsame.bind hend fun found => tracks_return (by cases found <;> rfl))
    · refine .inr ⟨hkind, ?_, ?_, ?_⟩
      · rw [← bind_pure_comp] at hloses
        obtain hbare | ⟨arguments, middle, -, error, behind, hrun, -⟩ := hloses.of_bind
        · exact hbare
        · cases hrun
      · obtain ⟨arguments, hbare, -⟩ := map_ok hfound
        exact ⟨arguments, behind', hbare⟩
      · rw [bind_eq hloses.attempt]
        rfl
  · refine .inl (tracksAt_parenthesized?_bind he hbare hend (fun _ => tracks_return rfl) ?_ ?_)
    · refine (tracks_peekKind stream hend).bind_of fun first behind hrun _ => ?_
      obtain ⟨rfl, rfl⟩ := pure_ok hrun
      rw [moved_kind]
      by_cases hstarts : startsArgument behind.peek.kind
      · simpa [hstarts, hkind] using hbehind behind hend
      · simpa [hstarts] using (tracks_return rfl : Tracks lost shift (pure ([], false))
          (pure (([], false) : List Argument × Bool))) behind hend
    · intro hparen hloses
      dsimp only
      rw [Loses, bind_eq (hpeek _), hparen]
      exact hloses.series.bind _

theorem tracks_operatorBlock : Tracks lost shift (operatorBlock enter) (operatorBlock enter') := by
  refine (tracks_isAt _).bind fun _ => tracks_ite ?_ (tracks_return rfl)
  refine tracks_take.bind fun opener => tracks_skipNewlines.bind fun _ =>
    (he _ (.pipeline opener)).bind fun body => (tracks_expectClosing _ opener).bind fun _ =>
      tracks_commaBehind.bind fun _ => tracks_ite (fun stream hend => ?_) (tracks_return rfl)
  have hbehind : Tracks lost shift (do return (some body, ← bareArguments enter))
      (do return (some (moved shift body), ← bareArguments enter')) :=
    (tracks_bareArguments he).bind fun _ => tracks_return rfl
  exact tracksAt_parenthesized?_bind he hbare hend (fun _ => tracks_return rfl)
    (hbehind stream hend)
    fun _ hloses => hloses.series.bind _

/-- An invocation is tracked if what is read in place of lost arguments is lost, too. -/
theorem tracks_invocation (hblock : LosesBlock lost shift enter enter') :
    Tracks lost shift (invocation enter) (invocation enter') := by
  refine tracks_entity.bind fun operator stream hend => ?_
  obtain hsame | ⟨hkind, hloses, hfinds, hrun⟩ := tracks_operatorArguments he hbare hend
  · refine hsame.bind hend fun found => (tracks_operatorBlock he hbare).bind fun inner =>
      tracks_lastSpan.bind fun stop => tracks_return ?_
    obtain ⟨_ | block, trailing⟩ := inner <;> rfl
  · refine .inl ?_
    rw [Loses, bind_eq hrun]
    exact (hblock stream hend hkind hloses hfinds).bind _

end

section

variable (hi : Tracks lost shift (invocation enter) (invocation enter'))

include hi

/-! ### Kinds of statements -/

theorem tracks_assignmentOrInvocation :
    Tracks lost shift (assignmentOrInvocation enter) (assignmentOrInvocation enter') := by
  refine (tracks_assignmentStatement? he).bind fun found => ?_
  cases found with
  | some statement => exact tracks_return rfl
  | none =>
    refine (tracks_isAt _).bind fun _ => tracks_ite hi (tracks_selector?.bind fun found => ?_)
    cases found <;> exact tracks_unexpected _

theorem tracks_statement : Tracks lost shift (statement enter) (statement enter') := by
  refine tracks_peekKind.bind fun kind => ?_
  rw [moved_kind]
  split
  · exact tracks_letBinding he
  · exact (tracks_conditional he).bind fun _ => tracks_return rfl
  · exact tracks_selection he
  · exact tracks_assignmentOrInvocation he hi
  · exact tracks_assignmentOrInvocation he hi
  · exact tracks_assignmentOrInvocation he hi
  · exact tracks_unexpected _

end

omit he in
theorem tracks_anotherStatement (closer : TokenKind) :
    Tracks lost shift (anotherStatement closer) (anotherStatement closer) :=
  (tracks_skip _).bind fun _ => (tracks_isAt _).bind fun _ =>
    tracks_ite (tracks_return rfl) (tracks_ite (tracks_return rfl) (tracks_unexpected _))

omit he in
theorem ofStatements?_moved (statements : List Statement) :
    Pipeline.ofStatements? (moved shift statements) =
      moved shift (Pipeline.ofStatements? statements) := by
  rw [Pipeline.ofStatements?, Pipeline.ofStatements?, moved_list, List.head?_map, List.getLast?_map]
  cases statements.head? <;> cases statements.getLast? <;> try rfl
  next first last =>
    show some (Pipeline.mk _ ((moved shift first).span.through (moved shift last).span)) =
      some (Pipeline.shifted shift _)
    rw [Pipeline.shifted, Statement.allShifted_eq, Statement.span_moved, Statement.span_moved]
    rfl

omit he in
theorem tracks_closing {α : Type} [Movable α] {rule rule' : Parse α}
    (hends : ∀ error, lost error → foundEnd error = false) (h : Tracks lost shift rule rule')
    (opener : Token) :
    Tracks lost shift (closing opener rule) (closing (moved shift opener) rule') := by
  have hok : ∀ {rule : Parse α} {opener : Token} {stream behind : TokenStream} {a : α},
      rule.run stream = .ok a behind → (Grammar.closing opener rule).run stream = .ok a behind := by
    intro rule opener stream behind a hrun
    simp only [Grammar.closing, EStateM.run] at hrun ⊢
    rw [hrun]
  have herror : ∀ {rule : Parse α} {stream behind : TokenStream} {error : SyntaxError}
      (opener : Token), rule.run stream = .error error behind →
      (Grammar.closing opener rule).run stream =
        if foundEnd error then unclosed opener behind else .error error behind := by
    intro rule stream behind error opener hrun
    simp only [Grammar.closing, EStateM.run] at hrun ⊢
    rw [hrun]
  intro stream hend
  obtain ⟨error, behind, hrun, hlost⟩ | ⟨hsame, hstop⟩ := h stream hend
  · exact .inl ⟨error, behind, by rw [herror opener hrun, hends error hlost]; rfl, hlost⟩
  cases hrun : rule.run stream with
  | ok a behind =>
    rw [hrun, moved_ok] at hsame
    exact tracksAt_ok (hok hrun) (hok hsame) (hstop a behind hrun)
  | error error behind =>
    rw [hrun, moved_error] at hsame
    have hrun := herror opener hrun
    have hsame := herror (moved shift opener) hsame
    rw [foundEnd_moved] at hsame
    split at hrun
    · next hfound =>
      rw [if_pos hfound] at hsame
      refine tracksAt_error hrun (hsame.trans ?_)
      show EStateM.Result.error
        (SyntaxError.mk _ (moved shift behind).peek.span) (moved shift behind) = _
      rw [TokenStream.peek_moved]
      rfl
    · next hfound =>
      rw [if_neg hfound] at hsame
      exact tracksAt_error hrun hsame

section

variable (hi : Tracks lost shift (invocation enter) (invocation enter'))
  (hends : ∀ error, lost error → foundEnd error = false)

include hi hends

omit hends in
theorem tracks_pipeline : Tracks lost shift (pipeline enter) (pipeline enter') := by
  refine ((tracks_statement he hi).series (tracks_anotherStatement _)).bind fun statements => ?_
  rw [ofStatements?_moved]
  cases Pipeline.ofStatements? statements with
  | some found => exact tracks_return rfl
  | none => exact tracks_unexpected _

theorem tracks_pipelineBehind (opener : Token) :
    Tracks lost shift (pipelineBehind enter opener)
      (pipelineBehind enter' (moved shift opener)) :=
  (tracks_isAt _).bind fun _ =>
    tracks_ite (tracks_unclosed opener) (tracks_closing hends (tracks_pipeline he hi) opener)

theorem tracks_block : Tracks lost shift (block enter) (block enter') := by
  refine (tracks_expect _).bind fun opener => tracks_skipNewlines.bind fun _ =>
    (tracks_isAt _).bind fun _ => ?_
  have hclose : ∀ body : Option Pipeline, Tracks lost shift
      (do let closer ← expectClosing .rBrace opener
          return Block.mk body (opener.span.through closer.span))
      (do let closer ← expectClosing .rBrace (moved shift opener)
          return Block.mk (moved shift body) ((moved shift opener).span.through closer.span)) :=
    fun body => (tracks_expectClosing _ opener).bind fun _ =>
      tracks_return (by cases body <;> rfl)
  have hbody : Tracks lost shift (some <$> pipelineBehind enter opener)
      (some <$> pipelineBehind enter' (moved shift opener)) :=
    (tracks_pipelineBehind he hi hends opener).map fun _ => rfl
  exact tracks_ite ((tracks_return rfl).bind fun body => hclose body)
    (hbody.bind fun body => hclose body)

omit hi hends in
theorem tracks_pattern : Tracks lost shift (pattern enter) (pattern enter') :=
  tracks_atArrow.bind fun _ => tracks_ite (tracks_primary he) (tracks_expression he)

omit hi hends in
theorem tracks_arm : Tracks lost shift (arm enter) (arm enter') :=
  ((tracks_pattern he).series tracks_commaBehind).bind fun patterns =>
    (tracks_expect _).bind fun _ => (tracks_expect _).bind fun opener =>
      tracks_skipNewlines.bind fun _ => (he _ (.pipeline opener)).bind fun _ =>
        (tracks_expectClosing _ opener).bind fun _ =>
          tracks_return (by
            cases patterns with
            | nil => rfl
            | cons first rest =>
              show Arm.mk _ _ (((moved shift first).span).through _) = _
              rw [Expr.span_moved]
              rfl)

omit he hi hends in
theorem tracks_atArm (opener : Token) :
    Tracks lost shift (atArm opener) (atArm (moved shift opener)) := by
  refine tracks_peekKind.bind fun kind => ?_
  rw [moved_kind]
  split
  · exact tracks_return rfl
  · exact tracks_unclosed opener
  · exact tracks_return rfl

omit hi hends in
theorem tracks_armsBehind (opener : Token) :
    Tracks lost shift (armsBehind enter opener) (armsBehind enter' (moved shift opener)) :=
  (tracks_atArm opener).bind fun _ => tracks_ite
    ((tracks_arm he).series ((tracks_skip _).bind fun _ => tracks_atArm opener))
    (tracks_return rfl)

/-- If nested parts are tracked, and invocations are, so is what they are nested in. -/
theorem entersTracking_rule :
    EntersTracking lost shift (fun _ goal => goal.rule enter) (fun _ goal => goal.rule enter') := by
  intro α goal
  cases goal with
  | expression least => exact tracks_chain he least
  | listItems => exact tracks_items (tracks_listItem he) _
  | recordItems => exact tracks_items (tracks_recordItem he) _
  | arguments opener => exact tracks_argumentsBehind he opener
  | conditional => exact tracks_conditional he
  | block => exact tracks_block he hi hends
  | arms opener => exact tracks_armsBehind he opener
  | pipeline opener => exact tracks_pipelineBehind he hi hends opener

end

omit he in
/-- Where nothing is lost, invocations are tracked if nested parts are. -/
theorem tracks_invocation_never (he : EntersTracking (fun _ => False) shift enter enter') :
    Tracks (fun _ => False) shift (invocation enter) (invocation enter') := by
  have hnever : ∀ {α : Type} {rule : Parse α} {stream : TokenStream},
      ¬ Loses (fun _ => False) rule stream := by
    rintro α rule stream ⟨error, behind, -, hlost⟩
    exact hlost
  exact tracks_invocation he (fun _ _ _ hloses => absurd hloses hnever)
    fun _ _ _ hloses _ => absurd hloses hnever

/-- The statements up to the end are tracked, unless the error behind them is lost. -/
theorem tracks_statementsToEnd (hi : Tracks lost shift (invocation enter) (invocation enter'))
    {stream : TokenStream} (hend : stream.stop.kind = .eof) :
    (∃ error, (statementsToEnd enter stream).error = some error ∧ lost error) ∨
      statementsToEnd enter' (moved shift stream) = moved shift (statementsToEnd enter stream) := by
  rw [statementsToEnd, statementsToEnd, TokenStream.peek_moved, Token.kind_moved]
  split
  · exact .inr rfl
  · rw [harvestAll, harvestAll, TokenStream.length_rest_moved]
    exact ((tracks_statement he hi).harvest (tracks_anotherStatement .eof) _ hend).imp id And.left

end

/-- A rule does the same wherever its tokens stand. -/
theorem entersTracking_moved (shift : Shift) (limit depth : Nat) :
    EntersTracking (fun _ => False) shift (enterTo limit depth) (enterTo limit depth) := by
  induction depth with
  | zero => exact fun α goal => @tracks_fail α goal.movable _ _ _ _ fun _ => rfl
  | succ depth ih =>
    exact entersTracking_rule ih (tracks_invocation_never ih) fun _ hlost => hlost.elim

end Grammar

end PipelineLang
