import PipelineLang.Grammar.Program
import PipelineLang.Proofs.Grammar.Series
import PipelineLang.Proofs.Token.Moved

/-!
# Rules that track each other

Two rules are compared on streams of the same tokens, one of which may stand further on. One
tracks the other if it does the same there, except where the other one fails in some way that
is said beforehand.

## Main definitions

- `Parse.Loses` — a rule fails in such a way
- `Parse.Tracks` — a rule does the same as another one, unless that one is lost

## Main results

- `Parse.Tracks.bind`, `Parse.Tracks.series` — one rule after another
- `Parse.Tracks.attempt` — a reading that may be given up

## Design notes

Whatever a rule does, it does it to the stream that it gets, so rules are compared stream by
stream; only where a reading is given up does it matter which stream that is.
-/

namespace PipelineLang

/-! ### Moved streams and errors -/

instance : Movable TokenStream where
  moved shift stream :=
    ⟨moved shift stream.rest, moved shift stream.last, moved shift stream.stop⟩
  moved_zero stream := by simp

instance : Movable SyntaxCause where
  moved shift
    | .unclosed opener openedAt => .unclosed opener (moved shift openedAt)
    | cause => cause
  moved_zero cause := by cases cause <;> simp

instance : Movable SyntaxError where
  moved shift error := ⟨moved shift error.cause, moved shift error.span⟩
  moved_zero error := by simp

instance : Movable Grammar.Suffix where
  moved shift
    | .member name mark stop => .member (moved shift name) mark (moved shift stop)
    | .index key optional stop => .index (moved shift key) optional (moved shift stop)
    | .call function arguments stop =>
      .call (moved shift function) (moved shift arguments) (moved shift stop)
  moved_zero suffix := by cases suffix <;> simp

section

variable {α : Type} [Movable α]

instance : Movable (EStateM.Result SyntaxError TokenStream α) where
  moved shift
    | .ok a behind => .ok (moved shift a) (moved shift behind)
    | .error error behind => .error (moved shift error) (moved shift behind)
  moved_zero found := by cases found <;> simp

instance : Movable (Parse.Harvest α) where
  moved shift found :=
    ⟨moved shift found.items, moved shift found.error, moved shift found.behind⟩
  moved_zero found := by simp

variable {shift : Shift}

@[simp] theorem moved_ok (a : α) (behind : TokenStream) :
    moved shift (EStateM.Result.ok a behind : EStateM.Result SyntaxError TokenStream α) =
      .ok (moved shift a) (moved shift behind) := rfl

@[simp] theorem moved_error (error : SyntaxError) (behind : TokenStream) :
    moved shift (EStateM.Result.error error behind : EStateM.Result SyntaxError TokenStream α) =
      .error (moved shift error) (moved shift behind) := rfl

end

namespace TokenStream

variable {shift : Shift} (stream : TokenStream)

@[simp] theorem peek_moved : (moved shift stream).peek = moved shift stream.peek := by
  obtain ⟨_ | ⟨token, rest⟩, last, stop⟩ := stream <;> rfl

@[simp] theorem peekSecond_moved : (moved shift stream).peekSecond = stream.peekSecond := by
  obtain ⟨_ | ⟨first, _ | ⟨second, rest⟩⟩, last, stop⟩ := stream <;> rfl

@[simp] theorem pass_moved : (moved shift stream).pass = moved shift stream.pass := by
  obtain ⟨_ | ⟨token, rest⟩, last, stop⟩ := stream <;> rfl

theorem stop_pass : stream.pass.stop = stream.stop := by
  obtain ⟨_ | ⟨token, rest⟩, last, stop⟩ := stream <;> rfl

@[simp] theorem lastSpan_moved : (moved shift stream).lastSpan = moved shift stream.lastSpan := by
  have hlast : (moved shift stream).last = moved shift stream.last := rfl
  rw [lastSpan, lastSpan, hlast, peek_moved]
  cases stream.last <;> rfl

@[simp] theorem length_rest_moved : (moved shift stream).rest.length = stream.rest.length :=
  List.length_map _

theorem passWhile_moved (p : TokenKind → Bool) :
    (moved shift stream).passWhile p = moved shift (stream.passWhile p) := by
  obtain ⟨rest, last, stop⟩ := stream
  have hpassed : (rest.map (moved shift)).takeWhile (fun token => p token.kind) =
      (rest.takeWhile fun token => p token.kind).map (moved shift) := by
    rw [List.takeWhile_map]
    rfl
  show TokenStream.mk
    ((rest.map (moved shift)).drop
      ((rest.map (moved shift)).takeWhile fun token => p token.kind).length)
    ((((rest.map (moved shift)).takeWhile fun token => p token.kind).getLast?.map (·.span)).or
      (last.map (moved shift))) (moved shift stop) =
    TokenStream.mk
      ((rest.drop (rest.takeWhile fun token => p token.kind).length).map (moved shift))
      ((((rest.takeWhile fun token => p token.kind).getLast?.map (·.span)).or last).map
        (moved shift)) (moved shift stop)
  rw [hpassed, List.length_map, ← List.map_drop, List.getLast?_map]
  cases (rest.takeWhile fun token => p token.kind).getLast? <;> cases last <;> rfl

end TokenStream

@[simp] theorem Grammar.foundEnd_moved {shift : Shift} (error : SyntaxError) :
    foundEnd (moved shift error) = foundEnd error := by
  obtain ⟨cause, span⟩ := error
  cases cause <;> rfl

namespace Parse

variable {α β : Type} [Movable α] [Movable β] {lost : SyntaxError → Prop} {shift : Shift}

omit [Movable α] in
/-- A rule fails with an error of some sort. -/
def Loses (lost : SyntaxError → Prop) (rule : Parse α) (stream : TokenStream) : Prop :=
  ∃ error behind, rule.run stream = .error error behind ∧ lost error

/-- Where `rule` is not lost on a stream, `rule'` does the same on the moved stream, and the end
of the stream stays what it is. -/
def TracksAt (lost : SyntaxError → Prop) (shift : Shift) (rule rule' : Parse α)
    (stream : TokenStream) : Prop :=
  Loses lost rule stream ∨
    rule'.run (moved shift stream) = moved shift (rule.run stream) ∧
      ∀ a behind, rule.run stream = .ok a behind → behind.stop = stream.stop

/-- Where `rule` is not lost, `rule'` does the same on the moved stream. -/
def Tracks (lost : SyntaxError → Prop) (shift : Shift) (rule rule' : Parse α) : Prop :=
  ∀ stream : TokenStream, stream.stop.kind = .eof → TracksAt lost shift rule rule' stream

theorem tracksAt_ok {rule rule' : Parse α} {stream behind : TokenStream} {a : α}
    (h : rule.run stream = .ok a behind)
    (h' : rule'.run (moved shift stream) = .ok (moved shift a) (moved shift behind))
    (hstop : behind.stop = stream.stop) : TracksAt lost shift rule rule' stream := by
  refine .inr ⟨by rw [h, h', moved_ok], fun b other hrun => ?_⟩
  rw [h] at hrun
  cases hrun
  exact hstop

theorem tracksAt_error {rule rule' : Parse α} {stream behind : TokenStream} {error : SyntaxError}
    (h : rule.run stream = .error error behind)
    (h' : rule'.run (moved shift stream) = .error (moved shift error) (moved shift behind)) :
    TracksAt lost shift rule rule' stream :=
  .inr ⟨by rw [h, h', moved_error], fun b other hrun => by rw [h] at hrun; cases hrun⟩

omit [Movable α] [Movable β] in
theorem Loses.bind {rule : Parse α} {stream : TokenStream} (h : Loses lost rule stream)
    (next : α → Parse β) : Loses lost (rule >>= next) stream := by
  obtain ⟨error, behind, hrun, hlost⟩ := h
  exact ⟨error, behind, bind_error hrun, hlost⟩

omit [Movable α] [Movable β] in
theorem Loses.of_bind {rule : Parse α} {next : α → Parse β} {stream : TokenStream}
    (h : Loses lost (rule >>= next) stream) : Loses lost rule stream ∨
      ∃ a behind, rule.run stream = .ok a behind ∧ Loses lost (next a) behind := by
  obtain ⟨error, behind, hrun, hlost⟩ := h
  cases hrule : rule.run stream with
  | ok a middle =>
    rw [bind_eq hrule] at hrun
    exact .inr ⟨a, middle, rfl, error, behind, hrun, hlost⟩
  | error other middle =>
    rw [bind_error hrule] at hrun
    cases hrun
    exact .inl ⟨error, behind, hrule, hlost⟩

section

variable {rule rule' : Parse α}

/-- What comes behind a rule need only be tracked for what the rule yields. -/
theorem TracksAt.bind_of {next next' : α → Parse β} {stream : TokenStream}
    (h : TracksAt lost shift rule rule' stream)
    (hnext : ∀ a behind, rule.run stream = .ok a behind → behind.stop = stream.stop →
      TracksAt lost shift (next a) (next' (moved shift a)) behind) :
    TracksAt lost shift (rule >>= next) (rule' >>= next') stream := by
  obtain hlost | ⟨hsame, hstop⟩ := h
  · exact .inl (hlost.bind next)
  rw [TracksAt, Loses]
  cases hrun : rule.run stream with
  | ok a middle =>
    rw [hrun, moved_ok] at hsame
    rw [bind_eq hrun, bind_eq hsame]
    have hmiddle := hstop a middle hrun
    exact (hnext a middle hrun hmiddle).imp id fun ⟨hsame, hstop⟩ =>
      ⟨hsame, fun b behind hrun => (hstop b behind hrun).trans hmiddle⟩
  | error error behind =>
    rw [hrun, moved_error] at hsame
    rw [bind_error hrun, bind_error hsame]
    exact .inr ⟨rfl, by simp⟩

theorem TracksAt.bind {next next' : α → Parse β} {stream : TokenStream}
    (h : TracksAt lost shift rule rule' stream) (hstop : stream.stop.kind = .eof)
    (hnext : ∀ a, Tracks lost shift (next a) (next' (moved shift a))) :
    TracksAt lost shift (rule >>= next) (rule' >>= next') stream :=
  h.bind_of fun a behind _ hbehind => hnext a behind (by rwa [hbehind])

theorem Tracks.bind {next next' : α → Parse β} (h : Tracks lost shift rule rule')
    (hnext : ∀ a, Tracks lost shift (next a) (next' (moved shift a))) :
    Tracks lost shift (rule >>= next) (rule' >>= next') :=
  fun stream hstop => (h stream hstop).bind hstop hnext

theorem tracks_return {a a' : α} (h : a' = moved shift a) :
    Tracks lost shift (pure a : Parse α) (pure a') := by
  intro stream _
  rw [h]
  exact .inr ⟨rfl, fun b behind hrun => by obtain ⟨-, rfl⟩ := pure_ok hrun; rfl⟩

theorem Tracks.map {f f' : α → β} (h : Tracks lost shift rule rule')
    (hf : ∀ a, f' (moved shift a) = moved shift (f a)) :
    Tracks lost shift (f <$> rule) (f' <$> rule') := by
  rw [← bind_pure_comp, ← bind_pure_comp]
  exact h.bind fun a => tracks_return (hf a)

theorem tracks_ite {other other' : Parse α} {p : Prop} [Decidable p]
    (h : Tracks lost shift rule rule') (h' : Tracks lost shift other other') :
    Tracks lost shift (if p then rule else other) (if p then rule' else other') := by
  split
  · exact h
  · exact h'

/-- A rule that looks at the stream and leaves it as it is. -/
theorem tracks_look {look : TokenStream → α}
    (h : ∀ stream, look (moved shift stream) = moved shift (look stream)) :
    Tracks lost shift (fun stream => .ok (look stream) stream)
      (fun stream => .ok (look stream) stream) := by
  intro stream _
  refine .inr ⟨?_, fun a behind hrun => by cases hrun; rfl⟩
  show EStateM.Result.ok (look (moved shift stream)) (moved shift stream) = _
  rw [h]
  rfl

/-- A rule that fails at the next token. -/
theorem tracks_fail {cause cause' : TokenStream → SyntaxCause}
    (h : ∀ stream, cause' (moved shift stream) = moved shift (cause stream)) :
    Tracks lost shift (fun stream => fail (cause stream) stream : Parse α)
      (fun stream => fail (cause' stream) stream) := by
  intro stream _
  refine .inr ⟨?_, fun a behind hrun => by cases hrun⟩
  show EStateM.Result.error
    (SyntaxError.mk (cause' (moved shift stream)) (moved shift stream).peek.span)
    (moved shift stream) = _
  rw [h, TokenStream.peek_moved]
  rfl

end

/-! ### Rules for tokens -/

theorem tracks_peek : Tracks lost shift peek peek := tracks_look TokenStream.peek_moved

theorem tracks_peekKind : Tracks lost shift peekKind peekKind :=
  tracks_look fun stream => by simp

theorem tracks_peekSecond : Tracks lost shift peekSecond peekSecond :=
  tracks_look fun stream => by simp

theorem tracks_isAt (kind : TokenKind) : Tracks lost shift (isAt kind) (isAt kind) :=
  tracks_look fun stream => by simp

theorem tracks_lastSpan : Tracks lost shift lastSpan lastSpan :=
  tracks_look TokenStream.lastSpan_moved

theorem tracks_take : Tracks lost shift take take := by
  intro stream _
  refine .inr ⟨?_, fun token behind hrun => by cases hrun; exact TokenStream.stop_pass _⟩
  show EStateM.Result.ok (moved shift stream).peek (moved shift stream).pass = _
  rw [TokenStream.peek_moved, TokenStream.pass_moved]
  rfl

theorem tracks_takeSeveral (count : Nat) :
    Tracks lost shift (takeSeveral count) (takeSeveral count) := by
  induction count with
  | zero => exact tracks_return rfl
  | succ count ih => exact tracks_take.bind fun _ => ih

theorem tracks_eat (kind : TokenKind) : Tracks lost shift (eat kind) (eat kind) :=
  (tracks_isAt kind).bind fun _ =>
    tracks_ite (tracks_take.bind fun _ => tracks_return rfl) (tracks_return rfl)

theorem tracks_eats (kind : TokenKind) : Tracks lost shift (eats kind) (eats kind) :=
  (tracks_eat kind).bind fun found => tracks_return (by cases found <;> rfl)

theorem tracks_skip (kinds : List TokenKind) : Tracks lost shift (skip kinds) (skip kinds) := by
  intro stream _
  refine .inr ⟨?_, fun found behind hrun => by cases hrun; rfl⟩
  show EStateM.Result.ok (kinds.contains (moved shift stream).peek.kind)
    ((moved shift stream).passWhile kinds.contains) = _
  rw [TokenStream.peek_moved, TokenStream.passWhile_moved]
  rfl

theorem tracks_skipNewlines : Tracks lost shift skipNewlines skipNewlines :=
  (tracks_skip _).bind fun _ => tracks_return rfl

theorem tracks_unexpected (expected : List Expectation) :
    Tracks lost shift (unexpected expected : Parse α) (unexpected expected) :=
  tracks_fail fun stream => by
    rw [TokenStream.peek_moved]
    rfl

theorem tracks_unclosed (opener : Token) :
    Tracks lost shift (unclosed opener : Parse α) (unclosed (moved shift opener)) :=
  tracks_fail fun _ => rfl

theorem tracks_expect (kind : TokenKind) : Tracks lost shift (expect kind) (expect kind) := by
  refine (tracks_eat kind).bind fun found => ?_
  cases found with
  | some token => exact tracks_return rfl
  | none => exact tracks_unexpected _

theorem tracks_expectClosing (kind : TokenKind) (opener : Token) :
    Tracks lost shift (expectClosing kind opener) (expectClosing kind (moved shift opener)) :=
  (tracks_isAt _).bind fun _ => tracks_ite (tracks_unclosed opener) (tracks_expect kind)

/-! ### Rules that may leave the stream as it was -/

section

variable {rule rule' : Parse (Option α)}

theorem Tracks.commit (h : Tracks lost shift rule rule') :
    Tracks lost shift (Parse.commit rule) (Parse.commit rule') := by
  intro stream hend
  have herror : ∀ {rule : Parse (Option α)} {stream behind : TokenStream} {error : SyntaxError},
      rule.run stream = .error error behind →
      (Parse.commit rule).run stream = .error error behind := by
    intro rule stream behind error hrun
    simp only [Parse.commit, EStateM.run] at hrun ⊢
    rw [hrun]
  obtain ⟨error, behind, hrun, hlost⟩ | ⟨hsame, hstop⟩ := h stream hend
  · exact .inl ⟨error, behind, herror hrun, hlost⟩
  cases hrun : rule.run stream with
  | ok found behind =>
    rw [hrun, moved_ok] at hsame
    cases found with
    | some a =>
      exact tracksAt_ok (commit_eq_some hrun) (commit_eq_some hsame) (hstop _ _ hrun)
    | none => exact tracksAt_ok (commit_eq_none behind hrun) (commit_eq_none _ hsame) rfl
  | error error behind =>
    rw [hrun, moved_error] at hsame
    exact tracksAt_error (herror hrun) (herror hsame)

omit [Movable α] in
theorem Loses.attempt {stream : TokenStream} (h : Loses lost rule stream) :
    (Parse.attempt rule).run stream = .ok none stream := by
  obtain ⟨error, behind, hrun, -⟩ := h
  exact attempt_eq_none (by rw [hrun]; simp)

/-- What is attempted is tracked unless it is lost while the other rule yields something. -/
theorem Tracks.attempt (h : Tracks lost shift rule rule') {stream : TokenStream}
    (hend : stream.stop.kind = .eof) :
    TracksAt lost shift (Parse.attempt rule) (Parse.attempt rule') stream ∨
    Loses lost rule stream ∧
      ∃ a behind, rule'.run (moved shift stream) = .ok (some a) behind := by
  have hnone : ∀ {rule : Parse (Option α)} {stream : TokenStream},
      (∀ a behind, rule.run stream ≠ .ok (some a) behind) →
      (Parse.attempt rule).run stream = .ok none stream := attempt_eq_none
  obtain ⟨error, behind, hrun, hlost⟩ | ⟨hsame, hstop⟩ := h stream hend
  · by_cases hfound : ∃ a behind, rule'.run (moved shift stream) = .ok (some a) behind
    · exact .inr ⟨⟨error, behind, hrun, hlost⟩, hfound⟩
    · have hnone' := hnone fun a behind hrun' => hfound ⟨a, behind, hrun'⟩
      exact .inl (tracksAt_ok (hnone (by simp [hrun])) hnone' rfl)
  · refine .inl ?_
    cases hrun : rule.run stream with
    | ok found behind =>
      rw [hrun, moved_ok] at hsame
      cases found with
      | some a =>
        exact tracksAt_ok (attempt_eq_some hrun) (attempt_eq_some hsame) (hstop _ _ hrun)
      | none =>
        rw [moved_none] at hsame
        exact tracksAt_ok (hnone (by simp [hrun])) (hnone (by simp [hsame])) rfl
    | error error behind =>
      rw [hrun, moved_error] at hsame
      exact tracksAt_ok (hnone (by simp [hrun])) (hnone (by simp [hsame])) rfl

end

section

variable {rule rule' : Parse α}

theorem Tracks.within (h : Tracks lost shift rule rule') {inner : TokenStream}
    (hend : inner.stop.kind = .eof) :
    Tracks lost shift (Parse.within inner rule) (Parse.within (moved shift inner) rule') := by
  intro stream _
  have hok : ∀ {rule : Parse α} {inner stream behind : TokenStream} {a : α},
      rule.run inner = .ok a behind → (Parse.within inner rule).run stream = .ok a stream := by
    intro rule inner stream behind a hrun
    simp only [Parse.within, EStateM.run] at hrun ⊢
    rw [hrun]
  have herror : ∀ {rule : Parse α} {inner stream behind : TokenStream} {error : SyntaxError},
      rule.run inner = .error error behind →
      (Parse.within inner rule).run stream = .error error stream := by
    intro rule inner stream behind error hrun
    simp only [Parse.within, EStateM.run] at hrun ⊢
    rw [hrun]
  obtain ⟨error, behind, hrun, hlost⟩ | ⟨hsame, -⟩ := h inner hend
  · exact .inl ⟨error, stream, herror hrun, hlost⟩
  cases hrun : rule.run inner with
  | ok a behind =>
    rw [hrun, moved_ok] at hsame
    exact tracksAt_ok (hok hrun) (hok hsame) rfl
  | error error behind =>
    rw [hrun, moved_error] at hsame
    exact tracksAt_error (herror hrun) (herror hsame)

end

/-! ### Series -/

section

variable {item item' : Parse α} {again again' : Parse Bool}

theorem Tracks.harvest (hitem : Tracks lost shift item item')
    (hagain : Tracks lost shift again again') (turns : Nat) {stream : TokenStream}
    (hend : stream.stop.kind = .eof) :
    (∃ error, (Parse.harvest item again turns stream).error = some error ∧ lost error) ∨
    Parse.harvest item' again' turns (moved shift stream) =
        moved shift (Parse.harvest item again turns stream) ∧
      ((Parse.harvest item again turns stream).error = none →
        (Parse.harvest item again turns stream).behind.stop = stream.stop) := by
  induction turns generalizing stream with
  | zero => exact .inr ⟨rfl, fun _ => rfl⟩
  | succ turns ih =>
    rw [Parse.harvest, Parse.harvest]
    obtain ⟨error, behind, hrun, hlost⟩ | ⟨hsame, hstop⟩ := hitem stream hend
    · rw [EStateM.run] at hrun
      rw [hrun]
      exact .inl ⟨error, rfl, hlost⟩
    simp only [EStateM.run] at hsame hstop
    cases hrun : item stream with
    | error error behind =>
      rw [hrun, moved_error] at hsame
      rw [hsame]
      exact .inr ⟨rfl, by simp⟩
    | ok a middle =>
      have hmiddle := hstop a middle hrun
      rw [hrun, moved_ok] at hsame
      rw [hsame]
      dsimp only
      obtain ⟨error, behind, hmore, hlost⟩ | ⟨hsame, hstop⟩ := hagain middle (by rwa [hmiddle])
      · rw [EStateM.run] at hmore
        rw [hmore]
        exact .inl ⟨error, rfl, hlost⟩
      simp only [EStateM.run] at hsame hstop
      cases hmore : again middle with
      | error error behind =>
        rw [hmore, moved_error] at hsame
        rw [hsame]
        exact .inr ⟨rfl, by simp⟩
      | ok found behind =>
        have hbehind := (hstop found behind hmore).trans hmiddle
        rw [hmore, moved_ok, moved_bool] at hsame
        rw [hsame]
        cases found with
        | false => exact .inr ⟨rfl, fun _ => hbehind⟩
        | true =>
          obtain ⟨error, herror, hlost⟩ | ⟨hothers, hstop⟩ := ih (by rwa [hbehind])
          · exact .inl ⟨error, herror, hlost⟩
          · refine .inr ⟨?_, fun hnone => (hstop hnone).trans hbehind⟩
            dsimp only
            rw [hothers]
            rfl

theorem Tracks.series (hitem : Tracks lost shift item item')
    (hagain : Tracks lost shift again again') :
    Tracks lost shift (Parse.series item again) (Parse.series item' again') := by
  intro stream hend
  obtain ⟨error, herror, hlost⟩ | ⟨hsame, hstop⟩ :=
    hitem.harvest hagain (stream.rest.length + 1) hend
  · refine .inl ⟨error, (Parse.harvest item again (stream.rest.length + 1) stream).behind,
      ?_, hlost⟩
    rw [series_run, herror]
    rfl
  · rw [TracksAt, Loses, series_run, series_run, TokenStream.length_rest_moved, hsame]
    generalize Parse.harvest item again (stream.rest.length + 1) stream = found at hstop
    obtain ⟨items, _ | error, behind⟩ := found
    · exact .inr ⟨rfl, fun a other hok => by cases hok; exact hstop rfl⟩
    · exact .inr ⟨rfl, fun a other hok => by cases hok⟩

theorem Tracks.whenAhead (hahead : Tracks lost shift again again')
    (hitem : Tracks lost shift item item') :
    Tracks lost shift (Parse.whenAhead again item) (Parse.whenAhead again' item') :=
  hahead.bind fun _ => tracks_ite (hitem.series hahead) (tracks_return rfl)

theorem Tracks.mapM {f f' : β → Parse α} {items : List β}
    (h : ∀ b ∈ items, Tracks lost shift (f b) (f' (moved shift b))) :
    Tracks lost shift (items.mapM f) ((moved shift items).mapM f') := by
  induction items with
  | nil => exact tracks_return rfl
  | cons b rest ih =>
    rw [List.forall_mem_cons] at h
    rw [moved_cons, List.mapM_cons, List.mapM_cons]
    exact h.1.bind fun _ => (ih h.2).bind fun _ => tracks_return rfl

omit [Movable α] in
/-- A series that loses its first item is lost. -/
theorem Loses.series {stream : TokenStream} (h : Loses lost item stream) :
    Loses lost (Parse.series item again) stream := by
  obtain ⟨error, behind, hrun, hlost⟩ := h
  exact ⟨error, behind, series_eq_error again hrun, hlost⟩

omit [Movable α] in
theorem series_ne_nil {stream behind : TokenStream} {as : List α}
    (h : (Parse.series item again).run stream = .ok as behind) : as ≠ [] := by
  simp only [Parse.series, harvestAll, EStateM.run] at h
  split at h
  · next herror =>
    obtain ⟨rfl, -⟩ := pure_ok h
    exact harvest_items_ne_nil _ _ herror
  · simp at h

end

end Parse

end PipelineLang
