import PipelineLang.Proofs.Grammar.Derivation

/-!
# Rules of expressions yield derivations

Whatever a rule of the grammar yields has a derivation from the tokens that the rule
has taken.

## Main definitions

- `Grammar.Sound` — a way to read nested parts yields parts of some shapes

## Main results

- `Grammar.primary_yields`, `Grammar.chain_yields`, … — one result for each rule, given
  those for nested parts
-/

namespace PipelineLang

open TokenStream Parse Shape

namespace Parse

variable {α β : Type} {before ahead : List Token} {stop : Token}

theorem lastSpan_bind {next : Span → Parse β} {stream : TokenStream} :
    (lastSpan >>= next).run stream = (next stream.lastSpan).run stream := rfl

theorem peek_bind {next : Token → Parse β} {stream : TokenStream} :
    (peek >>= next).run stream = (next stream.peek).run stream := rfl

/-- A token of a kind that has been looked at is taken. -/
theorem take_of_firstKind {next : Token → Parse β} {b : β} {behind : TokenStream}
    {kind : TokenKind} (hkind : firstKind ahead = kind) (heof : kind ≠ .eof)
    (h : (take >>= next).run (between before ahead stop) = .ok b behind) :
    ∃ token rest, ahead = token :: rest ∧ token.kind = kind ∧
      (next token).run (between (before ++ [token]) rest stop) = .ok b behind := by
  obtain ⟨token, rest, rfl, hk⟩ := exists_cons_of_firstKind hkind heof
  rw [bind_eq take_eq] at h
  exact ⟨token, rest, rfl, hk, h⟩

end Parse

namespace Grammar

/-- What a nested part has to start with: the rule of a conditional does not look at
its word. -/
def Starts : {α : Type} → Goal α → List Token → Prop
  | _, .conditional, ahead => firstKind ahead = .kwIf
  | _, _, _ => True

/-- A way to read nested parts yields parts of the shapes `nested`. -/
structure Sound (enter : Enter) (nested : Nested) : Prop where
  yieldsAt : ∀ {α : Type} (goal : Goal α), YieldsAt (Starts goal) (enter α goal) (nested α goal)
  /-- No expression is empty. -/
  progress : ∀ {least before taken ahead value},
    nested _ (.expression least) before taken ahead value → taken ≠ []
  /-- An expression in parentheses starts with the opening one. -/
  opening : ∀ {least before taken ahead inner span},
    nested _ (.expression least) before taken ahead (.paren inner span) →
      firstKind taken = .lParen
  /-- An expression in parentheses can also be read as an argument in parentheses. -/
  arguments : ∀ {before ahead : List Token} {opener stop : Token} {inner span behind},
    stop.kind = .eof → opener.kind = .lParen →
      (expression enter).run (between before (opener :: ahead) stop) =
        .ok (.paren inner span) behind →
      ∃ arguments, (callArguments enter).run (between before (opener :: ahead) stop) =
        .ok arguments behind

theorem Sound.yields {enter : Enter} {nested : Nested} (hs : Sound enter nested) {α : Type}
    (goal : Goal α) (hstarts : ∀ ahead, Starts goal ahead) :
    (enter α goal).Yields (nested α goal) :=
  fun _ _ _ _ _ hstop h => hs.yieldsAt goal hstop (hstarts _) h

theorem Sound.expression {enter : Enter} {nested : Nested} (hs : Sound enter nested)
    (least : Nat) : (enter _ (.expression least)).Yields (nested _ (.expression least)) :=
  hs.yields _ fun _ => trivial

/-! ### Names -/

theorem identifier_yields : identifier.Yields fun _ taken _ name =>
    ∃ token : Token, taken = [token] ∧ token.kind = .identifier ∧ name = identifierOf token := by
  intro before ahead stop name behind hstop h
  obtain ⟨token, taken, rest, rfl, ⟨rfl, hk⟩, h⟩ := (expect_yields _ (by decide)).of_bind hstop h
  obtain ⟨rfl, rfl⟩ := pure_ok h
  exact ⟨[token], rest, rfl, rfl, token, rfl, hk, rfl⟩

theorem path_of_series {before taken ahead : List Token} {names : List Identifier}
    (h : Series (fun _ taken _ name =>
        ∃ token : Token, taken = [token] ∧ token.kind = .identifier ∧ name = identifierOf token)
      (fun _ taken rest found =>
        (found = true ∧ ∃ token : Token, taken = [token] ∧ token.kind = .moduleSep) ∨
        (found = false ∧ taken = [] ∧ firstKind rest ≠ .moduleSep)) before taken ahead names) :
    Path taken names ∧ firstKind ahead ≠ .moduleSep := by
  induction h with
  | last hitem hagain =>
    obtain ⟨token, rfl, hk, rfl⟩ := hitem
    obtain ⟨h, -⟩ | ⟨-, rfl, hend⟩ := hagain
    · exact absurd h (by decide)
    · exact ⟨.one hk, hend⟩
  | more hitem hagain _ ih =>
    obtain ⟨token, rfl, hk, rfl⟩ := hitem
    obtain ⟨-, separator, rfl, hsep⟩ | ⟨h, -⟩ := hagain
    · exact ⟨.more hk hsep ih.1, ih.2⟩
    · exact absurd h (by decide)

theorem Path.ne_nil {tokens : List Token} {names : List Identifier} (h : Path tokens names) :
    tokens ≠ [] := by
  cases h <;> simp

theorem entity_yields : entity.Yields EntityAt := by
  intro before ahead stop entity behind hstop h
  have hseries := series_yields identifier_yields (eats_yields .moduleSep (by decide))
    (by rintro _ _ _ _ ⟨token, rfl, -⟩; simp)
  obtain ⟨names, taken, rest, rfl, hnames, h⟩ := hseries.of_bind hstop h
  obtain ⟨hpath, hend⟩ := path_of_series hnames
  rw [lastSpan_bind, lastSpan_between_append _ _ _ hpath.ne_nil] at h
  obtain ⟨rfl, rfl⟩ := pure_ok h
  exact ⟨taken, rest, rfl, rfl, hpath, hend, rfl⟩

theorem atFieldStep_eq {before ahead : List Token} {stop : Token} (hstop : stop.kind = .eof) :
    atFieldStep.run (between before ahead stop) =
      .ok (firstKind ahead == .dot && secondKind ahead == .identifier)
        (between before ahead stop) := by
  simp only [atFieldStep]
  rw [bind_eq (peekKind_eq hstop)]
  cases firstKind ahead == .dot with
  | false => rfl
  | true => exact bind_eq peekSecond_eq

theorem fieldSegment_yieldsAt :
    YieldsAt (fun ahead => firstKind ahead = .identifier) fieldSegment fun _ taken _ segment =>
      Step taken segment := by
  intro before ahead stop segment behind hstop hahead h
  obtain ⟨name, rest, rfl, hk, h⟩ := take_of_firstKind hahead (by decide) h
  obtain ⟨optional, taken, rest, rfl, hoptional, h⟩ :=
    (eats_yields .question (by decide)).of_bind hstop h
  obtain ⟨rfl, rfl⟩ := pure_ok h
  refine ⟨name :: taken, rest, rfl, by simp, ?_⟩
  obtain ⟨rfl, mark, rfl, hmark⟩ | ⟨rfl, rfl, -⟩ := hoptional
  · exact .optional hk hmark
  · exact .plain hk

theorem anotherFieldStep_yields : anotherFieldStep.Yields fun _ taken rest found =>
    (found = true ∧ (∃ dot : Token, taken = [dot] ∧ dot.kind = .dot) ∧
      firstKind rest = .identifier) ∨ (found = false ∧ taken = []) := by
  intro before ahead stop found behind hstop h
  rw [anotherFieldStep, bind_eq (atFieldStep_eq hstop)] at h
  split at h
  · next hstep =>
    rw [Bool.and_eq_true, beq_iff_eq, beq_iff_eq] at hstep
    obtain ⟨dot, rest, rfl, hk, h⟩ := take_of_firstKind hstep.1 (by decide) h
    obtain ⟨rfl, rfl⟩ := pure_ok h
    exact ⟨[dot], rest, rfl, rfl, .inl ⟨rfl, ⟨dot, rfl, hk⟩, hstep.2⟩⟩
  · obtain ⟨rfl, rfl⟩ := pure_ok h
    exact ⟨[], ahead, rfl, by simp, .inr ⟨rfl, rfl⟩⟩

theorem steps_of_series {before taken ahead : List Token} {segments : List FieldSegment}
    (h : Series (fun _ taken _ segment => Step taken segment)
      (fun _ taken rest found =>
        (found = true ∧ (∃ dot : Token, taken = [dot] ∧ dot.kind = .dot) ∧
          firstKind rest = .identifier) ∨ (found = false ∧ taken = []))
      before taken ahead segments) : Steps taken segments := by
  induction h with
  | last hitem hagain =>
    obtain ⟨h, -⟩ | ⟨-, rfl⟩ := hagain
    · exact absurd h (by decide)
    · simpa using .one hitem
  | more hitem hagain _ ih =>
    obtain ⟨-, ⟨dot, rfl, hdot⟩, -⟩ | ⟨h, -⟩ := hagain
    · simpa using .more hitem hdot ih
    · exact absurd h (by decide)

theorem Steps.ne_nil {tokens : List Token} {segments : List FieldSegment}
    (h : Steps tokens segments) : tokens ≠ [] := by
  cases h with
  | one hstep => cases hstep <;> simp
  | more => simp

theorem fieldPath_yieldsAt (start : Span) (rooted : Bool) :
    YieldsAt (fun ahead => firstKind ahead = .identifier) (fieldPath start rooted)
      fun _ taken _ selector => ∃ segments,
        selector = .field ⟨rooted, segments, start.through (endOf taken)⟩ ∧
          Steps taken segments := by
  intro before ahead stop selector behind hstop hahead h
  obtain ⟨segments, middle, hseries, h⟩ := bind_ok h
  obtain ⟨taken, rest, rfl, rfl, hsegments⟩ :=
    series_yieldsAt fieldSegment_yieldsAt anotherFieldStep_yields
      (by rintro _ _ _ (⟨-, -, h⟩ | ⟨h, -⟩); exacts [h, absurd h (by decide)])
      (by rintro _ _ _ _ (_ | _) <;> simp) hstop hahead hseries
  have hsteps := steps_of_series hsegments
  rw [lastSpan_bind, lastSpan_between_append _ _ _ hsteps.ne_nil] at h
  obtain ⟨rfl, rfl⟩ := pure_ok h
  exact ⟨taken, rest, rfl, rfl, segments, rfl, hsteps⟩

/-- A selector, or nothing. -/
theorem selector?_yields : selector?.Yields fun _ taken _ found =>
    (∃ selector, found = some selector ∧ SelectorOf taken selector) ∨
    (found = none ∧ taken = []) := by
  intro before ahead stop found behind hstop h
  obtain ⟨selector, rfl, hrun⟩ | ⟨rfl, rfl, -⟩ := commit_ok h
  · clear h
    rw [peek_bind] at hrun
    split at hrun
    · next hk =>
      rw [kind_peek_between _ hstop] at hk
      obtain ⟨sign, rest, rfl, hk, hrun⟩ := take_of_firstKind hk (by decide) hrun
      obtain ⟨name?, taken, rest, rfl, hname, hrun⟩ :=
        (eat_yields .identifier (by decide)).of_bind hstop hrun
      obtain ⟨name, rfl, rfl, hname⟩ | ⟨rfl, -, -⟩ := hname
      · obtain ⟨hselector, rfl⟩ := pure_ok hrun
        obtain rfl := Option.some.inj hselector
        exact ⟨[sign, name], rest, rfl, by simp, .inl ⟨_, rfl, .metadata hk hname⟩⟩
      · exact absurd (pure_ok hrun).1 (by simp)
    · next hk =>
      rw [kind_peek_between _ hstop] at hk
      obtain ⟨this, rest, rfl, hk, hrun⟩ := take_of_firstKind hk (by decide) hrun
      obtain ⟨found, taken, rest, rfl, hfound, hrun⟩ := anotherFieldStep_yields.of_bind hstop hrun
      obtain ⟨rfl, ⟨dot, rfl, hdot⟩, hname⟩ | ⟨rfl, rfl⟩ := hfound
      · rw [if_pos rfl] at hrun
        obtain ⟨path, middle, hpath, hrun⟩ := bind_ok hrun
        obtain ⟨hselector, rfl⟩ := pure_ok hrun
        obtain rfl := Option.some.inj hselector
        obtain ⟨steps, rest, rfl, rfl, segments, rfl, hsteps⟩ :=
          fieldPath_yieldsAt _ _ hstop hname hpath
        have hselector := SelectorOf.rooted hk hdot hsteps
        rw [show endOf (this :: dot :: steps) = endOf steps from
          endOf_append [this, dot] hsteps.ne_nil] at hselector
        exact ⟨this :: dot :: steps, rest, rfl, by simp, .inl ⟨_, rfl, hselector⟩⟩
      · rw [if_neg (by simp)] at hrun
        obtain ⟨hselector, rfl⟩ := pure_ok hrun
        obtain rfl := Option.some.inj hselector
        exact ⟨[this], rest, rfl, by simp, .inl ⟨_, rfl, .root hk⟩⟩
    · next hk =>
      rw [kind_peek_between _ hstop] at hk
      obtain ⟨path, middle, hpath, hrun⟩ := bind_ok hrun
      obtain ⟨hselector, rfl⟩ := pure_ok hrun
      obtain rfl := Option.some.inj hselector
      obtain ⟨steps, rest, rfl, rfl, segments, rfl, hsteps⟩ :=
        fieldPath_yieldsAt _ _ hstop hk hpath
      cases steps with
      | nil => exact absurd rfl hsteps.ne_nil
      | cons first steps =>
        exact ⟨first :: steps, rest, rfl, rfl, .inl ⟨_, rfl, .path hsteps⟩⟩
    · exact absurd (pure_ok hrun).1 (by simp)
  · exact ⟨[], ahead, rfl, by simp, .inr ⟨rfl, rfl⟩⟩

theorem atCall_eq {before ahead : List Token} {stop : Token} (hstop : stop.kind = .eof) :
    atCall.run (between before ahead stop) =
      .ok (firstKind ahead == .identifier &&
        (secondKind ahead == .moduleSep || secondKind ahead == .lParen))
        (between before ahead stop) := by
  rw [atCall, bind_eq peekSecond_eq]
  exact bind_eq (peekKind_eq hstop)

section

variable {enter : Enter} {nested : Nested} (hs : Sound enter nested)

include hs

/-! ### Arguments -/

theorem expression_yields : (expression enter).Yields (nested _ (.expression 0)) :=
  hs.expression 0

/-- An assignment, or nothing. -/
theorem assignment?_yields : (assignment? enter).Yields fun before taken ahead found =>
    (∃ assignment, found = some assignment ∧
      AssignmentAt nested before taken ahead assignment) ∨ (found = none ∧ taken = []) := by
  intro before ahead stop found behind hstop h
  obtain ⟨target?, middle, htarget, hrest⟩ := bind_ok h
  obtain ⟨target, rfl, hrun⟩ | ⟨rfl, rfl, -⟩ := commit_ok htarget
  · obtain ⟨selector?, taken, rest, rfl, hselector, hrun⟩ :=
      selector?_yields.of_bind hstop hrun
    obtain ⟨selector, rfl, hselector⟩ | ⟨rfl, -⟩ := hselector
    · obtain ⟨found?, sign, rest, rfl, hsign, hrun⟩ :=
        (eats_yields .assign (by decide)).of_bind hstop hrun
      obtain ⟨rfl, sign, rfl, hsign⟩ | ⟨rfl, -⟩ := hsign
      · rw [if_pos rfl] at hrun
        obtain ⟨hsame, rfl⟩ := pure_ok hrun
        obtain rfl := Option.some.inj hsame
        obtain ⟨value, tokens, rest, rfl, hvalue, hrest⟩ :=
          (expression_yields hs).of_bind hstop hrest
        obtain ⟨rfl, rfl⟩ := pure_ok hrest
        exact ⟨taken ++ sign :: tokens, rest, by simp, by simp,
          .inl ⟨_, rfl, .intro hselector hsign hvalue⟩⟩
      · rw [if_neg (by simp)] at hrun
        exact absurd (pure_ok hrun).1 (by simp)
    · exact absurd (pure_ok hrun).1 (by simp)
  · obtain ⟨rfl, rfl⟩ := pure_ok hrest
    exact ⟨[], ahead, rfl, by simp, .inr ⟨rfl, rfl⟩⟩

theorem argument_yields : (argument enter).Yields (ArgumentAt nested) := by
  intro before ahead stop argument behind hstop h
  obtain ⟨assignment?, taken, rest, rfl, hassignment, h⟩ :=
    (assignment?_yields hs).of_bind hstop h
  obtain ⟨⟨target, value⟩, rfl, hassignment⟩ | ⟨rfl, rfl⟩ := hassignment
  · obtain ⟨rfl, rfl⟩ := pure_ok h
    exact ⟨taken, rest, rfl, rfl, .named hassignment⟩
  · obtain ⟨value, tokens, rest, rfl, hvalue, h⟩ := (expression_yields hs).of_bind hstop h
    obtain ⟨rfl, rfl⟩ := pure_ok h
    exact ⟨tokens, rest, rfl, by simp, .positional (by simpa using hvalue)⟩

theorem callArguments_yields : (callArguments enter).Yields (CallArgumentsAt nested) := by
  intro before ahead stop arguments behind hstop h
  obtain ⟨opener, taken, rest, rfl, ⟨rfl, hk⟩, h⟩ :=
    (expect_yields .lParen (by decide)).of_bind hstop h
  obtain ⟨tokens, rest, rfl, rfl, harguments⟩ :=
    hs.yields (.arguments opener) (fun _ => trivial) hstop h
  exact ⟨opener :: tokens, rest, rfl, by simp, .intro hk harguments⟩

theorem call_yields : (call enter).Yields (CallAt nested) := by
  intro before ahead stop call behind hstop h
  obtain ⟨function, name, rest, rfl, hname, h⟩ := entity_yields.of_bind hstop h
  rw [bind_eq (isAt_eq hstop _)] at h
  split at h
  · obtain ⟨arguments, tokens, rest, rfl, harguments, h⟩ :=
      (callArguments_yields hs).of_bind hstop h
    obtain ⟨rfl, rfl⟩ := pure_ok h
    exact ⟨name ++ tokens, rest, by simp, by simp, .intro hname harguments⟩
  · exact absurd h unexpected_ne_ok

omit hs in
theorem CallAt.ne_nil {before taken ahead : List Token} {call : Entity × List Argument}
    (h : CallAt nested before taken ahead call) : taken ≠ [] := by
  obtain ⟨hname, -⟩ := h
  exact List.append_ne_nil_of_left_ne_nil hname.1.ne_nil _

/-! ### Format strings -/

theorem replacement_sound {ahead : List Token} {stop : Token} {value : Expr}
    {behind : TokenStream} (hstop : stop.kind = .eof)
    (hahead : ∀ token ∈ ahead, token.kind ≠ .eof)
    (h : (replacement enter).run (between [] ahead stop) = .ok value behind) :
    ReplacementOf nested ahead value := by
  obtain ⟨-, leading, rest, rfl, ⟨hleading, -⟩, h⟩ := skipNewlines_yields.of_bind hstop h
  obtain ⟨value, tokens, rest, rfl, hvalue, h⟩ := (expression_yields hs).of_bind hstop h
  obtain ⟨-, trailing, rest, rfl, ⟨htrailing, -⟩, h⟩ := skipNewlines_yields.of_bind hstop h
  rw [bind_eq (isAt_eq hstop _)] at h
  split at h
  · next heof =>
    obtain ⟨rfl, -⟩ := pure_ok h
    cases rest with
    | nil =>
      rw [List.append_nil] at hvalue ⊢
      exact .intro hleading hvalue htrailing
    | cons token rest =>
      exact absurd (beq_iff_eq.mp heof) (hahead token (by simp))
  · exact absurd h unexpected_ne_ok

theorem segment_sound {piece : FormatPiece} {segment : Segment} {stream behind : TokenStream}
    (h : (Grammar.segment enter piece).run stream = .ok segment behind) :
    SegmentOf nested piece segment ∧ behind = stream := by
  cases piece with
  | text raw span =>
    obtain ⟨rfl, rfl⟩ := pure_ok h
    exact ⟨.text, rfl⟩
  | replacement inner innerSpan span =>
    rw [Grammar.segment] at h
    split at h
    · next tokens htokens =>
      obtain ⟨value, middle, hwithin, hrest⟩ := bind_ok h
      obtain ⟨rfl, s, hvalue⟩ := within_ok hwithin
      obtain ⟨rfl, rfl⟩ := pure_ok hrest
      refine ⟨.replacement htokens (replacement_sound hs ?_ ?_ hvalue), rfl⟩
      · exact TokenStream.kind_stop_ofTokens tokens
      · exact fun token => TokenStream.kind_ne_of_mem_rest
    · exact absurd h fail_ne_ok

theorem segments_sound {pieces : List FormatPiece} {segments : List Segment}
    {stream behind : TokenStream}
    (h : (pieces.mapM (Grammar.segment enter)).run stream = .ok segments behind) :
    SegmentsOf nested pieces segments ∧ behind = stream := by
  induction pieces generalizing segments stream behind with
  | nil =>
    rw [List.mapM_nil] at h
    obtain ⟨rfl, rfl⟩ := pure_ok h
    exact ⟨.nil, rfl⟩
  | cons piece pieces ih =>
    rw [List.mapM_cons] at h
    obtain ⟨segment, middle, hfirst, hrest⟩ := bind_ok h
    obtain ⟨hsegment, rfl⟩ := segment_sound hs hfirst
    obtain ⟨segments, middle, hothers, hlast⟩ := bind_ok hrest
    obtain ⟨hsegments, rfl⟩ := ih hothers
    obtain ⟨rfl, rfl⟩ := pure_ok hlast
    exact ⟨.cons hsegment hsegments, rfl⟩

/-! ### Operands -/

theorem formatString_sound {before ahead : List Token} {stop token : Token} {value : Expr}
    {behind : TokenStream} (hk : token.kind = .formatString)
    (h : (formatString enter).run (between before (token :: ahead) stop) = .ok value behind) :
    behind = between (before ++ [token]) ahead stop ∧
      PrimaryAt nested before [token] ahead value := by
  rw [formatString, peek_bind, peek_between_cons] at h
  split at h
  · next pieces hpieces =>
    obtain ⟨segments, middle, hmap, hrest⟩ := bind_ok h
    obtain ⟨hsegments, rfl⟩ := segments_sound hs hmap
    rw [bind_eq take_eq] at hrest
    obtain ⟨rfl, rfl⟩ := pure_ok hrest
    exact ⟨rfl, .format hk hpieces hsegments⟩
  · exact absurd h fail_ne_ok

omit hs in
theorem literal_sound {before ahead : List Token} {stop token : Token} {value : Expr}
    {behind : TokenStream}
    (h : literal.run (between before (token :: ahead) stop) = .ok value behind) :
    behind = between (before ++ [token]) ahead stop ∧
      PrimaryAt nested before [token] ahead value := by
  rw [literal, peek_bind, peek_between_cons] at h
  split at h
  · next value hvalue =>
    rw [bind_eq take_eq] at h
    obtain ⟨rfl, rfl⟩ := pure_ok h
    exact ⟨rfl, .literal hvalue⟩
  · exact absurd h fail_ne_ok

theorem primary_yields : (primary enter).Yields (PrimaryAt nested) := by
  intro before ahead stop value behind hstop h
  cases ahead with
  | nil =>
    rw [primary, peek_bind, peek_between_nil] at h
    rw [hstop] at h
    exact absurd h unexpected_ne_ok
  | cons token ahead =>
  rw [primary, peek_bind, peek_between_cons] at h
  split at h
  · next hk =>
    obtain ⟨rfl, hvalue⟩ := formatString_sound hs hk h
    exact ⟨[token], ahead, rfl, rfl, hvalue⟩
  · next hk =>
    rw [bind_eq (atCall_eq hstop)] at h
    split at h
    · obtain ⟨⟨function, arguments⟩, taken, rest, hahead, hcall, h⟩ :=
        (call_yields hs).of_bind hstop h
      rw [lastSpan_bind, lastSpan_between_append _ _ _ hcall.ne_nil] at h
      obtain ⟨rfl, rfl⟩ := pure_ok h
      exact ⟨taken, rest, hahead, rfl, .call hcall⟩
    · next hcall =>
      rw [bind_eq take_eq] at h
      obtain ⟨rfl, rfl⟩ := pure_ok h
      refine ⟨[token], ahead, rfl, rfl, .name hk fun hcalled => hcall ?_⟩
      simpa [CallAhead] using hcalled
  · next hk =>
    rw [bind_eq take_eq] at h
    obtain ⟨rfl, rfl⟩ := pure_ok h
    exact ⟨[token], ahead, rfl, rfl, .dollar hk⟩
  · next hk =>
    rw [bind_eq take_eq] at h
    obtain ⟨rfl, rfl⟩ := pure_ok h
    exact ⟨[token], ahead, rfl, rfl, .this hk⟩
  · next hk =>
    rw [bind_eq take_eq] at h
    obtain ⟨_, taken, rest, rfl, ⟨name, rfl, hname, rfl⟩, h⟩ :=
      identifier_yields.of_bind hstop h
    obtain ⟨rfl, rfl⟩ := pure_ok h
    exact ⟨[token, name], rest, rfl, by simp, .metadata hk hname⟩
  · next hk =>
    rw [bind_eq take_eq] at h
    obtain ⟨items, tokens, rest, rfl, hitems, h⟩ :=
      (hs.yields .listItems fun _ => trivial).of_bind hstop h
    obtain ⟨closer, taken, rest, rfl, ⟨rfl, hcloser⟩, h⟩ :=
      (expectClosing_yields .rBracket (by decide)).of_bind hstop h
    obtain ⟨rfl, rfl⟩ := pure_ok h
    exact ⟨token :: (tokens ++ [closer]), rest, by simp, by simp, .list hk hcloser hitems⟩
  · next hk =>
    rw [bind_eq take_eq] at h
    obtain ⟨items, tokens, rest, rfl, hitems, h⟩ :=
      (hs.yields .recordItems fun _ => trivial).of_bind hstop h
    obtain ⟨closer, taken, rest, rfl, ⟨rfl, hcloser⟩, h⟩ :=
      (expectClosing_yields .rBrace (by decide)).of_bind hstop h
    obtain ⟨rfl, rfl⟩ := pure_ok h
    exact ⟨token :: (tokens ++ [closer]), rest, by simp, by simp, .record hk hcloser hitems⟩
  · next hk =>
    rw [bind_eq take_eq] at h
    obtain ⟨-, leading, rest, rfl, ⟨hleading, -⟩, h⟩ := skipNewlines_yields.of_bind hstop h
    obtain ⟨inner, tokens, rest, rfl, hinner, h⟩ := (expression_yields hs).of_bind hstop h
    obtain ⟨-, trailing, rest, rfl, ⟨htrailing, -⟩, h⟩ := skipNewlines_yields.of_bind hstop h
    obtain ⟨closer, taken, rest, rfl, ⟨rfl, hcloser⟩, h⟩ :=
      (expectClosing_yields .rParen (by decide)).of_bind hstop h
    obtain ⟨rfl, rfl⟩ := pure_ok h
    exact ⟨token :: (leading ++ tokens ++ trailing ++ [closer]), rest, by simp, by simp,
      .paren hk hcloser hleading htrailing (by simpa using hinner)⟩
  · split at h
    · obtain ⟨rfl, hvalue⟩ := literal_sound h
      exact ⟨[token], ahead, rfl, rfl, hvalue⟩
    · exact absurd h unexpected_ne_ok

theorem index_sound {opener : Token} {before ahead : List Token} {stop : Token} {found : Suffix}
    {behind : TokenStream} (hopener : opener.kind = .lBracket) (hstop : stop.kind = .eof)
    (h : (do
      skipNewlines
      let key ← expression enter
      skipNewlines
      let _ ← expectClosing .rBracket opener
      let optional ← eats .question
      return Suffix.index key optional (← lastSpan)).run
        (between (before ++ [opener]) ahead stop) = .ok found behind) :
    ∃ taken rest, ahead = taken ++ rest ∧
      behind = between (before ++ opener :: taken) rest stop ∧
      SuffixAt nested before (opener :: taken) rest found := by
  obtain ⟨-, leading, rest, rfl, ⟨hleading, -⟩, h⟩ := skipNewlines_yields.of_bind hstop h
  obtain ⟨key, tokens, rest, rfl, hkey, h⟩ := (expression_yields hs).of_bind hstop h
  obtain ⟨-, trailing, rest, rfl, ⟨htrailing, -⟩, h⟩ := skipNewlines_yields.of_bind hstop h
  obtain ⟨closer, taken, rest, rfl, ⟨rfl, hcloser⟩, h⟩ :=
    (expectClosing_yields .rBracket (by decide)).of_bind hstop h
  obtain ⟨optional, taken, rest, rfl, hmark, h⟩ :=
    (eats_yields .question (by decide)).of_bind hstop h
  rw [lastSpan_bind] at h
  obtain ⟨rfl, rfl⟩ := pure_ok h
  obtain ⟨rfl, mark, rfl, hmark⟩ | ⟨rfl, rfl, -⟩ := hmark
  · rw [lastSpan_between_concat]
    exact ⟨leading ++ tokens ++ trailing ++ [closer, mark], rest, by simp, by simp,
      .optionalIndex hopener hcloser hmark hleading htrailing (by simpa using hkey)⟩
  · rw [List.append_nil, lastSpan_between_concat]
    exact ⟨leading ++ tokens ++ trailing ++ [closer], rest, by simp, by simp,
      .index hopener hcloser hleading htrailing (by simpa using hkey)⟩

theorem suffix_yieldsAt :
    YieldsAt (fun ahead => suffixOpeners.contains (firstKind ahead) = true) (suffix enter)
      (SuffixAt nested) := by
  intro before ahead stop found behind hstop hahead h
  cases ahead with
  | nil => exact absurd hahead (by decide)
  | cons opener ahead =>
  rw [suffix, bind_eq take_eq] at h
  split at h
  · next hdot =>
    rw [bind_eq (atCall_eq hstop)] at h
    split at h
    · obtain ⟨⟨function, arguments⟩, tokens, rest, rfl, hcall, h⟩ :=
        (call_yields hs).of_bind hstop h
      rw [lastSpan_bind, lastSpan_between_append _ _ _ hcall.ne_nil] at h
      obtain ⟨rfl, rfl⟩ := pure_ok h
      have hsuffix : SuffixAt nested before (opener :: tokens) rest
          (.call function arguments (endOf (opener :: tokens))) := .call hdot hcall
      rw [show endOf (opener :: tokens) = endOf tokens from
        endOf_append [opener] hcall.ne_nil] at hsuffix
      exact ⟨opener :: tokens, rest, rfl, by simp, hsuffix⟩
    · next hcall =>
      obtain ⟨_, taken, rest, rfl, ⟨name, rfl, hname, rfl⟩, h⟩ :=
        identifier_yields.of_bind hstop h
      obtain ⟨optional, taken, rest, rfl, hmark, h⟩ :=
        (eats_yields .question (by decide)).of_bind hstop h
      obtain ⟨rfl, mark, rfl, hmark⟩ | ⟨rfl, rfl, -⟩ := hmark
      · simp only [if_pos, lastSpan_bind, lastSpan_between_concat] at h
        obtain ⟨rfl, rfl⟩ := pure_ok h
        exact ⟨[opener, name, mark], rest, rfl, by simp, .memberBehind hdot hname hmark⟩
      · simp only [Bool.false_eq_true, if_false, lastSpan_bind, List.append_nil,
          lastSpan_between_concat] at h
        obtain ⟨rfl, rfl⟩ := pure_ok h
        refine ⟨[opener, name], rest, rfl, by simp, .member hdot hname fun hcalled => hcall ?_⟩
        simpa [CallAhead] using hcalled
  · next hdot =>
    obtain ⟨_, taken, rest, rfl, ⟨name, rfl, hname, rfl⟩, h⟩ :=
      identifier_yields.of_bind hstop h
    obtain ⟨rfl, rfl⟩ := pure_ok h
    exact ⟨[opener, name], rest, rfl, by simp, .memberAhead hdot hname⟩
  · next hdot hdotQuestion =>
    have hopener : opener.kind = .lBracket := by
      have hmem : opener.kind ∈ suffixOpeners := by simpa using hahead
      simp only [suffixOpeners, List.mem_cons, List.not_mem_nil, or_false] at hmem
      obtain hk | hk | hk := hmem
      exacts [absurd hk hdot, absurd hk hdotQuestion, hk]
    obtain ⟨taken, rest, rfl, rfl, hsuffix⟩ := index_sound hs hopener hstop h
    exact ⟨opener :: taken, rest, rfl, rfl, hsuffix⟩

omit hs in
theorem SuffixAt.ne_nil {before taken ahead : List Token} {suffix : Suffix}
    (h : SuffixAt nested before taken ahead suffix) : taken ≠ [] := by
  cases h <;> simp

theorem suffixes_yields : (whenAhead atSuffix (suffix enter)).Yields
    fun before taken ahead suffixes => Many (SuffixAt nested) before taken ahead suffixes ∧
      suffixOpeners.contains (firstKind ahead) = false :=
  whenAhead_yields (p := fun ahead => suffixOpeners.contains (firstKind ahead))
    (fun hstop => bind_eq (peekKind_eq hstop)) (suffix_yieldsAt hs)
    (fun _ _ _ _ => SuffixAt.ne_nil)

theorem suffixed_yields : (suffixed enter).Yields (SuffixedAt nested) := by
  intro before ahead stop value behind hstop h
  obtain ⟨receiver, tokens, rest, rfl, hreceiver, h⟩ := (primary_yields hs).of_bind hstop h
  obtain ⟨suffixes, others, rest, rfl, ⟨hsuffixes, hend⟩, h⟩ :=
    (suffixes_yields hs).of_bind hstop h
  obtain ⟨rfl, rfl⟩ := pure_ok h
  exact ⟨tokens ++ others, rest, by simp, by simp, .intro hreceiver hsuffixes (by simpa using hend)⟩

/-! ### Operators -/

theorem lambda_sound {parameter arrow : Token} {before ahead : List Token} {stop : Token}
    {value : Expr} {behind : TokenStream} (hparameter : parameter.kind = .identifier)
    (harrow : arrow.kind = .fatArrow) (hstop : stop.kind = .eof)
    (h : (lambda enter).run (between before (parameter :: arrow :: ahead) stop) =
      .ok value behind) :
    ∃ taken rest, parameter :: arrow :: ahead = taken ++ rest ∧
      behind = between (before ++ taken) rest stop ∧ OperandAt nested before taken rest value := by
  rw [lambda, bind_eq take_eq, bind_eq take_eq] at h
  obtain ⟨-, leading, rest, rfl, ⟨hleading, -⟩, h⟩ := skipNewlines_yields.of_bind hstop h
  obtain ⟨body, tokens, rest, rfl, hbody, h⟩ := (hs.expression _).of_bind hstop h
  obtain ⟨rfl, rfl⟩ := pure_ok h
  exact ⟨parameter :: arrow :: (leading ++ tokens), rest, by simp, by simp,
    .lambda hparameter harrow hleading (by simpa using hbody)⟩

omit hs in
theorem atArrow_eq {before ahead : List Token} {stop : Token} (hstop : stop.kind = .eof) :
    atArrow.run (between before ahead stop) =
      .ok (firstKind ahead == .identifier && secondKind ahead == .fatArrow)
        (between before ahead stop) := by
  rw [atArrow, bind_eq (peekKind_eq hstop)]
  cases firstKind ahead == .identifier with
  | false => rfl
  | true => exact bind_eq peekSecond_eq

theorem operand_yields : (operand enter).Yields (OperandAt nested) := by
  intro before ahead stop value behind hstop h
  rw [operand, bind_eq (peekKind_eq hstop)] at h
  split at h
  · next op hop =>
    obtain ⟨opener, rest, rfl, hk, h⟩ :=
      take_of_firstKind rfl (fun heof => by simp [heof, unaryOp?] at hop) h
    obtain ⟨operand, tokens, rest, rfl, hoperand, h⟩ := (hs.expression _).of_bind hstop h
    obtain ⟨rfl, rfl⟩ := pure_ok h
    exact ⟨opener :: tokens, rest, rfl, by simp, .unary hop hoperand⟩
  · next hop =>
    rw [bind_eq (atArrow_eq hstop)] at h
    split at h
    · next harrow =>
      rw [Bool.and_eq_true, beq_iff_eq, beq_iff_eq] at harrow
      obtain ⟨hfirst, hsecond⟩ := harrow
      obtain ⟨parameter, ahead, rfl, hparameter⟩ := exists_cons_of_firstKind hfirst (by decide)
      obtain ⟨arrow, ahead, rfl, harrow⟩ := exists_cons_of_firstKind hsecond (by decide)
      exact lambda_sound hs hparameter harrow hstop h
    · next harrow =>
      obtain ⟨taken, rest, rfl, rfl, hvalue⟩ := suffixed_yields hs hstop h
      exact ⟨taken, rest, rfl, rfl, .plain hop (by simpa [ArrowAhead] using harrow) hvalue⟩

omit hs in
/-- The tokens of the operator that is next. -/
theorem exists_sign {ahead : List Token} {op : BinaryOp} {width : Nat}
    (h : binaryOp? (firstKind ahead) (secondKind ahead) = some (op, width)) :
    ∃ sign rest, ahead = sign ++ rest ∧ sign.length = width ∧ sign.map (·.kind) = op.kinds := by
  match ahead with
  | [] => simp [binaryOp?] at h
  | first :: rest =>
    simp only [firstKind_cons, secondKind_cons] at h
    by_cases hnot : first.kind = .kwNot
    · obtain ⟨second, rest, rfl, hin⟩ : ∃ second rest', rest = second :: rest' ∧
          second.kind = .kwIn :=
        exists_cons_of_firstKind (by by_contra hin; simp [binaryOp?, hnot, hin] at h) (by decide)
      simp only [binaryOp?, hnot, hin, firstKind_cons, if_true, Option.some.injEq,
        Prod.mk.injEq] at h
      obtain ⟨rfl, rfl⟩ := h
      exact ⟨[first, second], rest, rfl, rfl, by simp [hnot, hin, BinaryOp.kinds]⟩
    · refine ⟨[first], rest, rfl, ?_⟩
      cases hk : first.kind <;> simp [binaryOp?, hk] at h hnot <;> obtain ⟨rfl, rfl⟩ := h <;>
        simp [hk, BinaryOp.kinds]

omit hs in
theorem takeSeveral_bind {β : Type} {next : Unit → Parse β} {sign before ahead : List Token}
    {stop : Token} : (takeSeveral sign.length >>= next).run (between before (sign ++ ahead) stop) =
      (next ()).run (between (before ++ sign) ahead stop) := by
  induction sign generalizing before with
  | nil => simp [takeSeveral]
  | cons token sign ih =>
    rw [List.length_cons, takeSeveral, bind_assoc, List.cons_append, bind_eq take_eq, ih]
    simp

omit hs in
theorem peekOperator_eq {least : Nat} {before ahead : List Token} {stop : Token}
    (hstop : stop.kind = .eof) :
    (peekOperator least).run (between before ahead stop) =
      .ok (operatorAhead? least ahead) (between before ahead stop) := by
  rw [peekOperator, bind_eq (peekKind_eq hstop), bind_eq peekSecond_eq]
  rfl

omit hs in
theorem LinkAt.ne_nil {least : Nat} {before taken ahead : List Token} {link : BinaryOp × Expr}
    (h : LinkAt nested least before taken ahead link) : taken ≠ [] := by
  obtain ⟨hsign, -, -, -⟩ := h
  intro hnil
  simp only [List.append_eq_nil_iff] at hnil
  obtain ⟨⟨rfl, -⟩, -⟩ := hnil
  exact absurd hsign.symm (BinaryOp.kinds_ne_nil _)

theorem link_yields (least : Nat) : (link enter least).Yields (LinkAt nested least) := by
  intro before ahead stop found behind hstop h
  rw [link, bind_eq (peekOperator_eq hstop)] at h
  split at h
  · next op width hop =>
    obtain ⟨hop, hleast⟩ := Option.filter_eq_some_iff.mp hop
    obtain ⟨sign, rest, rfl, rfl, hsign⟩ := exists_sign hop
    rw [takeSeveral_bind] at h
    obtain ⟨-, leading, rest, rfl, ⟨hleading, -⟩, h⟩ := skipNewlines_yields.of_bind hstop h
    obtain ⟨right, tokens, rest, rfl, hright, h⟩ := (hs.expression _).of_bind hstop h
    obtain ⟨rfl, rfl⟩ := pure_ok h
    exact ⟨sign ++ leading ++ tokens, rest, by simp, by simp,
      .intro hsign (by simpa using hleast) hleading hright⟩
  · exact absurd h unexpected_ne_ok

theorem links_yields (least : Nat) :
    (whenAhead (return (← peekOperator least).isSome) (link enter least)).Yields
      fun before taken ahead links => Many (LinkAt nested least) before taken ahead links ∧
        (operatorAhead? least ahead).isSome = false :=
  whenAhead_yields (p := fun ahead => (operatorAhead? least ahead).isSome)
    (fun hstop => bind_eq (peekOperator_eq hstop)) ((link_yields hs least).at _)
    (fun _ _ _ _ => LinkAt.ne_nil)

theorem chain_yields (least : Nat) : (chain enter least).Yields (ChainAt nested least) := by
  intro before ahead stop value behind hstop h
  obtain ⟨first, tokens, rest, rfl, hfirst, h⟩ := (operand_yields hs).of_bind hstop h
  obtain ⟨links, others, rest, rfl, ⟨hlinks, hend⟩, h⟩ := (links_yields hs least).of_bind hstop h
  obtain ⟨rfl, rfl⟩ := pure_ok h
  exact ⟨tokens ++ others, rest, by simp, by simp, .intro hfirst hlinks (by simpa using hend)⟩

/-! ### Items between brackets -/

omit hs in
theorem anotherItem_yields (closer : TokenKind) : (anotherItem closer).Yields Comma := by
  intro before ahead stop found behind hstop h
  obtain ⟨-, leading, rest, rfl, ⟨hleading, -⟩, h⟩ := skipNewlines_yields.of_bind hstop h
  obtain ⟨present, taken, rest, rfl, hcomma, h⟩ :=
    (eats_yields .comma (by decide)).of_bind hstop h
  obtain ⟨rfl, comma, rfl, hcomma⟩ | ⟨rfl, rfl, -⟩ := hcomma
  · rw [if_pos rfl] at h
    obtain ⟨-, trailing, rest, rfl, ⟨htrailing, -⟩, h⟩ := skipNewlines_yields.of_bind hstop h
    rw [bind_eq (isAt_eq hstop _), bind_eq (isAt_eq hstop _)] at h
    obtain ⟨rfl, rfl⟩ := pure_ok h
    exact ⟨leading ++ comma :: trailing, rest, by simp, by simp,
      .present hleading hcomma htrailing⟩
  · rw [if_neg (by simp)] at h
    obtain ⟨rfl, rfl⟩ := pure_ok h
    exact ⟨leading, rest, rfl, by simp, .absent hleading⟩

omit hs in
theorem items_yields {α : Type} {item : Parse α} {I : Shape α} (hitem : item.Yields I)
    (hprogress : ∀ before taken rest a, I before taken rest a → taken ≠ [])
    (closer : TokenKind) : (items item closer).Yields (ItemsAt I) := by
  intro before ahead stop found behind hstop h
  obtain ⟨-, leading, rest, rfl, ⟨hleading, -⟩, h⟩ := skipNewlines_yields.of_bind hstop h
  rw [bind_eq (isAt_eq hstop _), bind_eq (isAt_eq hstop _)] at h
  split at h
  · obtain ⟨rfl, rfl⟩ := pure_ok h
    exact ⟨leading, rest, rfl, rfl, .none hleading⟩
  · obtain ⟨tokens, rest, rfl, rfl, hitems⟩ :=
      series_yields hitem (anotherItem_yields closer) hprogress hstop h
    exact ⟨leading ++ tokens, rest, by simp, by simp, .some hleading hitems⟩

theorem spread_yieldsAt :
    YieldsAt (fun ahead => firstKind ahead = .ellipsis) (spread enter)
      fun before taken ahead found => ∃ ellipsis tokens value, taken = ellipsis :: tokens ∧
        ellipsis.kind = .ellipsis ∧
        nested _ (.expression 0) (before ++ [ellipsis]) tokens ahead value ∧
        found = (value, ellipsis.span.through value.span) := by
  intro before ahead stop found behind hstop hahead h
  obtain ⟨ellipsis, rest, rfl, hk, h⟩ := take_of_firstKind hahead (by decide) h
  obtain ⟨value, tokens, rest, rfl, hvalue, h⟩ := (expression_yields hs).of_bind hstop h
  obtain ⟨rfl, rfl⟩ := pure_ok h
  exact ⟨ellipsis :: tokens, rest, rfl, by simp, ellipsis, tokens, value, rfl, hk, hvalue, rfl⟩

theorem listItem_yields : (listItem enter).Yields (ListItemAt nested) := by
  intro before ahead stop item behind hstop h
  rw [listItem, bind_eq (isAt_eq hstop _)] at h
  split at h
  · next hellipsis =>
    obtain ⟨found, middle, hspread, hlast⟩ := bind_ok h
    obtain ⟨taken, rest, rfl, rfl, ellipsis, tokens, value, rfl, hk, hvalue, rfl⟩ :=
      spread_yieldsAt hs hstop (beq_iff_eq.mp hellipsis) hspread
    obtain ⟨rfl, rfl⟩ := pure_ok hlast
    exact ⟨ellipsis :: tokens, rest, rfl, rfl, .spread hk hvalue⟩
  · obtain ⟨value, tokens, rest, rfl, hvalue, h⟩ := (expression_yields hs).of_bind hstop h
    obtain ⟨rfl, rfl⟩ := pure_ok h
    exact ⟨tokens, rest, rfl, rfl, .item hvalue⟩

omit hs in
theorem recordKey_yields : recordKey.Yields fun _ taken _ key =>
    ∃ token, taken = [token] ∧ KeyOf token key := by
  intro before ahead stop key behind hstop h
  rw [recordKey, peek_bind] at h
  split at h
  · next hk =>
    rw [kind_peek_between _ hstop] at hk
    obtain ⟨name, rest, rfl, hk, h⟩ := take_of_firstKind hk (by decide) h
    obtain ⟨rfl, rfl⟩ := pure_ok h
    exact ⟨[name], rest, rfl, rfl, name, rfl, .identifier hk⟩
  · next hk =>
    rw [kind_peek_between _ hstop] at hk
    obtain ⟨token, rest, rfl, hk⟩ := exists_cons_of_firstKind hk (by decide)
    rw [peek_between_cons] at h
    split at h
    · next value hvalue =>
      rw [bind_eq take_eq] at h
      obtain ⟨rfl, rfl⟩ := pure_ok h
      exact ⟨[token], rest, rfl, rfl, token, rfl, .string hk hvalue⟩
    · exact absurd h fail_ne_ok
  · exact absurd h unexpected_ne_ok

theorem recordItem_yields : (recordItem enter).Yields (RecordItemAt nested) := by
  intro before ahead stop item behind hstop h
  rw [recordItem, bind_eq (isAt_eq hstop _)] at h
  split at h
  · next hellipsis =>
    obtain ⟨found, middle, hspread, hlast⟩ := bind_ok h
    obtain ⟨taken, rest, rfl, rfl, ellipsis, tokens, value, rfl, hk, hvalue, rfl⟩ :=
      spread_yieldsAt hs hstop (beq_iff_eq.mp hellipsis) hspread
    obtain ⟨rfl, rfl⟩ := pure_ok hlast
    exact ⟨ellipsis :: tokens, rest, rfl, rfl, .spread hk hvalue⟩
  · rw [peek_bind] at h
    obtain ⟨key, taken, rest, rfl, ⟨name, rfl, hkey⟩, h⟩ := recordKey_yields.of_bind hstop h
    obtain ⟨colon, taken, rest, rfl, ⟨rfl, hcolon⟩, h⟩ :=
      (expect_yields .colon (by decide)).of_bind hstop h
    obtain ⟨-, leading, rest, rfl, ⟨hleading, -⟩, h⟩ := skipNewlines_yields.of_bind hstop h
    obtain ⟨value, tokens, rest, rfl, hvalue, h⟩ := (expression_yields hs).of_bind hstop h
    obtain ⟨rfl, rfl⟩ := pure_ok h
    exact ⟨name :: colon :: (leading ++ tokens), rest, by simp, by simp,
      .field hkey hcolon hleading (by simpa using hvalue)⟩

theorem argument_progress {before taken ahead : List Token} {argument : Argument}
    (h : ArgumentAt nested before taken ahead argument) : taken ≠ [] := by
  cases h with
  | named hassignment =>
    cases hassignment
    simp
  | positional hvalue => exact hs.progress hvalue

theorem argumentsBehind_yields (opener : Token) :
    (argumentsBehind enter opener).Yields (ArgumentsBehindAt nested) := by
  intro before ahead stop arguments behind hstop h
  obtain ⟨arguments, tokens, rest, rfl, harguments, h⟩ :=
    (items_yields (argument_yields hs) (fun _ _ _ _ => argument_progress hs) _).of_bind hstop h
  obtain ⟨closer, taken, rest, rfl, ⟨rfl, hcloser⟩, h⟩ :=
    (expectClosing_yields .rParen (by decide)).of_bind hstop h
  obtain ⟨rfl, rfl⟩ := pure_ok h
  exact ⟨tokens ++ [closer], rest, by simp, by simp, .intro hcloser harguments⟩

theorem listItems_yields : (items (listItem enter) .rBracket).Yields
    (ItemsAt (ListItemAt nested)) := by
  refine items_yields (listItem_yields hs) ?_ _
  rintro _ _ _ _ (_ | hvalue)
  · simp
  · exact hs.progress hvalue

theorem recordItems_yields : (items (recordItem enter) .rBrace).Yields
    (ItemsAt (RecordItemAt nested)) := by
  refine items_yields (recordItem_yields hs) ?_ _
  rintro _ _ _ _ (_ | _) <;> simp

end

end Grammar

end PipelineLang
