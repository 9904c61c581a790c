import PipelineLang.Proofs.Grammar.DerivedStatements
import PipelineLang.Proofs.Grammar.Tracked

/-!
# Readings that are given up

Arguments in parentheses, and a record where a block may stand, are given up if they cannot be
read, and something else is read in their place. If it is the nesting that they fail for, what
is read in their place fails as well: for the nesting, or at one of a few tokens that only the
reading that was given up can go on with.

## Main definitions

- `SyntaxCause.IsMisread` — a fault at one of these tokens
- `TooDeep` — a fault that comes of the nesting

## Main results

- `Grammar.losesBare` — parentheses around arguments are read as those of an expression
- `Grammar.losesBlock` — the braces of a record are read as those of a block
- `Grammar.entersTracking_limits` — less may be nested in the same way, or the fault says so

## Design notes

A selector is an expression, too, up to its equals sign. If the first name of a path has a
question mark, the expression ends before that.
-/

namespace PipelineLang

open TokenStream Parse Shape

/-- A fault where something is read in place of a reading that was given up. -/
inductive SyntaxCause.IsMisread : SyntaxCause → Prop
  /-- Behind the first of several arguments, or behind the name of one. -/
  | paren {found : TokenKind} (h : found ∈ [TokenKind.comma, .assign, .question]) :
    IsMisread (.unexpected [.token .rParen] found)
  /-- At the head of a record. -/
  | brace {found : TokenKind} (h : found ∈ [TokenKind.rBrace, .ellipsis, .string]) :
    IsMisread (.unexpected [.statement] found)
  /-- Behind the first key of a record. -/
  | key : IsMisread (.unexpected [.token .newline, .token .pipe, .token .rBrace] .colon)

/-- A fault that comes of a nesting deeper than `limit`. -/
def TooDeep (limit : Nat) (error : SyntaxError) : Prop :=
  error.cause = .nestingTooDeep limit ∨ error.cause.IsMisread

theorem TooDeep.foundEnd {limit : Nat} {error : SyntaxError} (h : TooDeep limit error) :
    Grammar.foundEnd error = false := by
  obtain ⟨cause, span⟩ := error
  obtain hdeep | hmisread := h
  · obtain rfl : cause = _ := hdeep
    rfl
  · change cause.IsMisread at hmisread
    cases hmisread with
    | paren hfound | brace hfound =>
      simp only [List.mem_cons, List.not_mem_nil, or_false] at hfound
      obtain rfl | rfl | rfl := hfound <;> rfl
    | key => rfl

namespace TokenStream

/-- Every stream is one behind some token. -/
theorem exists_between (stream : TokenStream) :
    ∃ before, stream = between before stream.rest stream.stop := by
  obtain ⟨rest, _ | span, stop⟩ := stream
  · exact ⟨[], rfl⟩
  · exact ⟨[⟨.eof, "", span⟩], rfl⟩

/-- A stream whose next token is no end is one before this token. -/
theorem exists_between_cons {stream : TokenStream} {kind : TokenKind}
    (hend : stream.stop.kind = .eof) (h : stream.peek.kind = kind) (hkind : kind ≠ .eof) :
    ∃ before token rest,
      stream = between before (token :: rest) stream.stop ∧ token.kind = kind := by
  obtain ⟨before, hstream⟩ := stream.exists_between
  rw [hstream, kind_peek_between before hend] at h
  obtain ⟨token, rest, hrest, htoken⟩ := exists_cons_of_firstKind h hkind
  exact ⟨before, token, rest, by rw [← hrest]; exact hstream, htoken⟩

end TokenStream

namespace Parse

variable {α β : Type} {lost : SyntaxError → Prop} {limit : Nat} {stop : Token}
  {before taken ahead : List Token}

theorem Loses.bind_of {rule : Parse α} {next : α → Parse β} {stream behind : TokenStream} {a : α}
    (h : Loses lost (next a) behind) (hrun : rule.run stream = .ok a behind) :
    Loses lost (rule >>= next) stream := by
  rwa [Loses, bind_eq hrun]

/-- Once a rule has taken something, the next one has to be lost. -/
theorem Takes.loses_iff {rule : Parse α} {next : α → Parse β} {a : α}
    (h : rule.Takes stop before taken ahead a) :
    Loses lost (rule >>= next) (between before (taken ++ ahead) stop) ↔
      Loses lost (next a) (between (before ++ taken) ahead stop) := by
  rw [Loses, bind_eq h, Loses]

theorem Takes.loses_nil_iff {rule : Parse α} {next : α → Parse β} {a : α}
    (h : rule.Takes stop before [] ahead a) :
    Loses lost (rule >>= next) (between before ahead stop) ↔
      Loses lost (next a) (between before ahead stop) := by
  have hiff : Loses lost (rule >>= next) (between before ([] ++ ahead) stop) ↔
      Loses lost (next a) (between (before ++ []) ahead stop) := h.loses_iff
  rwa [List.nil_append, List.append_nil] at hiff

theorem Takes.not_loses {rule : Parse α} {a : α} (h : rule.Takes stop before taken ahead a) :
    ¬ Loses lost rule (between before (taken ++ ahead) stop) := by
  rintro ⟨error, behind, hrun, -⟩
  rw [h] at hrun
  cases hrun

theorem loses_series_behind {item : Parse α} {again : Parse Bool} {stream middle : TokenStream}
    {a : α} (hitem : item.run stream = .ok a middle) (h : Loses lost again middle) :
    Loses lost (series item again) stream := by
  obtain ⟨error, behind, hrun, hlost⟩ := h
  simp only [EStateM.run] at hitem hrun
  refine ⟨error, behind, ?_, hlost⟩
  simp only [series, harvestAll, harvest, EStateM.run, hitem, hrun]

end Parse

namespace Grammar

section

variable {limit depth : Nat} {stop : Token} (hstop : stop.kind = .eof)
  {before rest : List Token} {sign : Token}

/-! ### Selectors are expressions -/

theorem readsDerived_zero (enter : Enter) : ReadsDerived enter (nestedTo 0) :=
  fun _ _ _ _ _ _ _ _ hnone => hnone.elim

include hstop

/-- A step of a path with its dot is a suffix. -/
theorem suffixTakes_step (enter : Enter) (before ahead : List Token) {dot : Token}
    {tokens : List Token} {segment : FieldSegment} (hdot : dot.kind = .dot)
    (h : Step tokens segment) (hahead : firstKind ahead ∈ [TokenKind.assign, .dot]) :
    ∃ found, SuffixTakes enter stop before (dot :: tokens) ahead found := by
  have hquestion : firstKind ahead ≠ .question := fun hk => by simp [hk] at hahead
  have hread : ∀ {found : Suffix}, SuffixAt (nestedTo 0) before (dot :: tokens) ahead found →
      SuffixTakes enter stop before (dot :: tokens) ahead found := fun h =>
    derived_suffix hstop before (readsDerived_zero enter) (fun h => h.elim) h (alike_refl ahead)
      hquestion
  cases h with
  | @plain name hname =>
    have hcall : ¬ CallAhead (name :: ahead) := by
      rintro ⟨-, hk | hk⟩ <;>
      · rw [secondKind_cons] at hk
        simp [hk] at hahead
    exact ⟨_, hread (.member hdot hname hcall)⟩
  | optional hname hmark => exact ⟨_, hread (.memberBehind hdot hname hmark)⟩

/-- The steps of a path behind its first one are suffixes. -/
theorem suffixesTake_steps (enter : Enter) (before : List Token) {dot : Token} {steps : List Token}
    {segments : List FieldSegment} (hdot : dot.kind = .dot) (h : Steps steps segments)
    (hsign : sign.kind = .assign) : ∃ suffixes,
      Many (SuffixTakes enter stop) before (dot :: steps) (sign :: rest) suffixes := by
  induction h generalizing before dot with
  | @one tokens segment hstep =>
    obtain ⟨found, hfound⟩ := suffixTakes_step hstop enter before ([] ++ sign :: rest) hdot hstep
      (by simp [hsign])
    rw [← List.append_nil (dot :: tokens)]
    exact ⟨[found], .cons hfound .nil⟩
  | @more tokens dot' others segment segments hstep hdot' _ ih =>
    obtain ⟨found, hfound⟩ := suffixTakes_step hstop enter before (dot' :: others ++ sign :: rest)
      hdot hstep (by simp [hdot'])
    obtain ⟨suffixes, hsuffixes⟩ := ih (before ++ dot :: tokens) hdot'
    exact ⟨found :: suffixes, .cons hfound hsuffixes⟩

/-- Up to its equals sign, or up to a question mark behind its first name, a selector is an
operand. -/
theorem suffixesTake_selector (enter : Enter) (before rest : List Token) {target : List Token}
    {selector : Selector} (h : SelectorOf target selector) (hsign : sign.kind = .assign) :
    ∃ tokens others value, target = tokens ++ others ∧
      firstKind (others ++ sign :: rest) ∈ [TokenKind.assign, .question] ∧
      SuffixesTake enter stop before tokens (others ++ sign :: rest) value := by
  have hread : ∀ {tokens ahead : List Token} {value : Expr},
      PrimaryAt (nestedTo 0) before tokens ahead value →
      (primary enter).TakesSome stop before tokens ahead value := fun h =>
    derived_primary hstop before (readsDerived_zero enter) (fun h => h.elim) h (alike_refl _)
  cases h with
  | metadata hatSign hname =>
    exact ⟨_, [], _, (List.append_nil _).symm, by simp [hsign],
      .of_primary (hread (.metadata hatSign hname))⟩
  | root hthis =>
    exact ⟨_, [], _, (List.append_nil _).symm, by simp [hsign],
      .of_primary (hread (.this hthis))⟩
  | @rooted this dot steps segments hthis hdot hsteps =>
    obtain ⟨suffixes, hsuffixes⟩ :=
      suffixesTake_steps hstop enter (before ++ [this]) hdot hsteps hsign
    exact ⟨this :: dot :: steps, [], _, (List.append_nil _).symm, by simp [hsign], _, suffixes,
      [this], dot :: steps, rfl, hread (.this hthis), hsuffixes, rfl⟩
  | @path first steps segments hsteps =>
    have hname : ∀ {name : Token} {ahead : List Token}, name.kind = .identifier →
        firstKind ahead ∈ [TokenKind.assign, .question, .dot] →
        (primary enter).TakesSome stop before [name] ahead (nameOrPlaceholder name) := by
      intro name ahead hname hahead
      refine hread (.name hname ?_)
      rintro ⟨-, hk | hk⟩ <;>
      · rw [secondKind_cons] at hk
        simp [hk] at hahead
    generalize first :: steps = target at hsteps
    cases hsteps with
    | one hstep =>
      cases hstep with
      | @plain name hk =>
        exact ⟨[name], [], _, rfl, by simp [hsign], .of_primary (hname hk (by simp [hsign]))⟩
      | @optional name mark hk hmark =>
        exact ⟨[name], [mark], _, rfl, by simp [hmark], .of_primary (hname hk (by simp [hmark]))⟩
    | @more tokens dot others segment segments hstep hdot hothers =>
      cases hstep with
      | @plain name hk =>
        obtain ⟨suffixes, hsuffixes⟩ :=
          suffixesTake_steps hstop enter (before ++ [name]) hdot hothers hsign
        exact ⟨name :: dot :: others, [], _, (List.append_nil _).symm, by simp [hsign], _, suffixes,
          [name], dot :: others, rfl, hname hk (by simp [hdot]), hsuffixes, rfl⟩
      | @optional name mark hk hmark =>
        exact ⟨[name], mark :: dot :: others, _, rfl, by simp [hmark],
          .of_primary (hname hk (by simp [hmark]))⟩

omit hstop in
theorem plain_of_selectorKinds (rest : List Token) {target : List Token}
    (h : ∀ token ∈ target, token.kind ∈ selectorKinds) (hsign : sign.kind = .assign) :
    unaryOp? (firstKind (target ++ sign :: rest)) = none ∧
      ¬ ArrowAhead (target ++ sign :: rest) := by
  have hop : ∀ kind ∈ TokenKind.assign :: selectorKinds, unaryOp? kind = none := by decide
  have hfirst : ∀ {tokens : List Token}, (∀ token ∈ tokens, token.kind ∈ selectorKinds) →
      firstKind (tokens ++ sign :: rest) ∈ TokenKind.assign :: selectorKinds := by
    intro tokens htokens
    cases tokens with
    | nil => simp [hsign]
    | cons token tokens => exact List.mem_cons_of_mem _ (htokens token (by simp))
  refine ⟨hop _ (hfirst h), ?_⟩
  rintro ⟨hk, harrow⟩
  cases target with
  | nil => exact absurd (hsign.symm.trans hk) (by decide)
  | cons token target =>
    rw [List.cons_append, secondKind_cons] at harrow
    exact absurd (harrow ▸ hfirst (List.forall_mem_cons.mp h).2) (by decide)

/-- Where a selector with an equals sign comes, an expression and what is to come behind it are
lost. -/
theorem loses_of_selector {β : Type} {next : Expr → Parse β} (before : List Token)
    {target : List Token} {selector : Selector} (h : SelectorOf target selector)
    (hsign : sign.kind = .assign)
    (hnext : ∀ value {before ahead : List Token}, firstKind ahead ∈ [TokenKind.assign, .question] →
      Loses (TooDeep limit) (next value) (between before ahead stop)) :
    Loses (TooDeep limit) (expression (enterTo limit depth) >>= next)
      (between before (target ++ sign :: rest) stop) := by
  cases depth with
  | zero =>
    have hdeep : Loses (TooDeep limit) (expression (enterTo limit 0))
        (between before (target ++ sign :: rest) stop) := ⟨_, _, rfl, .inl rfl⟩
    exact hdeep.bind next
  | succ depth =>
    obtain ⟨hop, harrow⟩ := plain_of_selectorKinds rest h.kinds hsign
    obtain ⟨tokens, others, value, rfl, hahead, hread⟩ :=
      suffixesTake_selector hstop (enterTo limit depth) before rest h hsign
    rw [List.append_assoc] at hop harrow ⊢
    have hend : firstKind (others ++ sign :: rest) ∉ suffixOpeners ∧
        operatorAhead? 0 (others ++ sign :: rest) = none := by
      rw [operatorAhead?]
      simp only [List.mem_cons, List.not_mem_nil, or_false] at hahead
      obtain hk | hk := hahead <;> (rw [hk]; exact ⟨by decide, rfl⟩)
    have hoperand := operand_of_suffixed hstop (hread.suffixed hstop hend.1) hop harrow
    have hchain := (LinksTake.of_operand hoperand).chain hstop hend.2
    have hexpression : (expression (enterTo limit (depth + 1))).Takes stop before tokens
        (others ++ sign :: rest) value := hchain.1
    rw [hexpression.loses_iff]
    exact hnext value hahead

/-! ### Arguments in parentheses -/

omit hstop in
theorem loses_unexpected {α : Type} (hstop : stop.kind = .eof) {expected : List Expectation}
    {ahead : List Token} (h : (SyntaxCause.unexpected expected (firstKind ahead)).IsMisread) :
    Loses (TooDeep limit) (unexpected expected : Parse α) (between before ahead stop) := by
  rw [← kind_peek_between before hstop] at h
  exact ⟨_, _, rfl, .inr h⟩

theorem loses_expectClosing {opener : Token} {ahead : List Token}
    (h : firstKind ahead ∈ [TokenKind.comma, .assign, .question]) :
    Loses (TooDeep limit) (expectClosing .rParen opener) (between before ahead stop) := by
  have hne : firstKind ahead ≠ .eof ∧ firstKind ahead ≠ .rParen := by
    simp only [List.mem_cons, List.not_mem_nil, or_false] at h
    obtain hk | hk | hk := h <;> (rw [hk]; decide)
  refine Loses.bind_of ?_ (isAt_eq hstop .eof)
  rw [if_neg (by simpa using hne.1)]
  refine Loses.bind_of ?_ (eat_eq_none hstop hne.2)
  exact loses_unexpected hstop (.paren h)

/-- If arguments behind an opening parenthesis are lost, the first one is, or no closing
parenthesis comes behind it. -/
theorem loses_argumentsBehind {enter : Enter} {nested : Nested} (hs : Sound enter nested)
    {opener : Token} {newlines : List Token} (hnewlines : Newlines newlines)
    (hrest : firstKind rest ≠ .newline)
    (h : Loses (TooDeep limit) (argumentsBehind enter opener)
      (between before (newlines ++ rest) stop)) :
    Loses (TooDeep limit) (argument enter) (between (before ++ newlines) rest stop) ∨
    ∃ found before' newlines' rest', (argument enter).run (between (before ++ newlines) rest stop) =
        .ok found (between before' (newlines' ++ rest') stop) ∧
      Newlines newlines' ∧ firstKind rest' ≠ .newline ∧
      Loses (TooDeep limit) (expectClosing .rParen opener)
        (between (before' ++ newlines') rest' stop) := by
  -- behind the items, a closing parenthesis is what is lost
  have hclosing : ∀ {arguments : List Argument} {behind : TokenStream},
      (items (argument enter) .rParen).run (between before (newlines ++ rest) stop) =
        .ok arguments behind → Loses (TooDeep limit) (expectClosing .rParen opener) behind := by
    intro arguments behind hrun
    rw [argumentsBehind, Loses, bind_eq hrun] at h
    obtain hlost | ⟨closer, behind, -, error, other, hpure, -⟩ := Loses.of_bind h
    · exact hlost
    · cases hpure
  have hrun : (items (argument enter) .rParen).run (between before (newlines ++ rest) stop) =
      (if firstKind rest == .rParen || firstKind rest == .eof then pure []
        else series (argument enter) (anotherItem .rParen)).run
          (between (before ++ newlines) rest stop) := by
    rw [items, bind_eq (skipNewlines_takes hstop hnewlines hrest), bind_eq (isAt_eq hstop _),
      bind_eq (isAt_eq hstop _)]
  split at hrun
  · next hend =>
    exfalso
    have hlost := hclosing hrun
    simp only [Bool.or_eq_true, beq_iff_eq] at hend
    obtain hparen | heof := hend
    · obtain ⟨closer, rest, rfl, hk⟩ := exists_cons_of_firstKind hparen (by decide)
      have htakes : (expectClosing .rParen opener).Takes stop (before ++ newlines) [closer] rest
          closer := expectClosing_takes hstop (by decide) opener hk
      exact htakes.not_loses hlost
    · obtain ⟨error, behind, hunclosed, hdeep⟩ := hlost
      rw [expectClosing, bind_eq (isAt_eq hstop .eof), beq_iff_eq.mpr heof] at hunclosed
      cases hunclosed
      obtain hcause | hcause := hdeep <;> cases hcause
  · cases hfirst : (argument enter).run (between (before ++ newlines) rest stop) with
    | error error behind =>
      have hitems := hrun.trans (series_eq_error _ hfirst)
      rw [argumentsBehind, Loses, bind_error hitems] at h
      obtain ⟨_, _, hsame, hlost⟩ := h
      obtain ⟨rfl, rfl⟩ := EStateM.Result.error.inj hsame
      exact .inl ⟨_, _, hfirst, hlost⟩
    | ok found middle =>
      right
      obtain ⟨taken, ahead, rfl, rfl, -⟩ := argument_yields hs hstop hfirst
      obtain ⟨newlines', rest', rfl, hnewlines', hrest'⟩ := exists_newlines ahead
      refine ⟨found, before ++ newlines ++ taken, newlines', rest', rfl, hnewlines', hrest', ?_⟩
      by_cases hcomma : firstKind rest' = .comma
      · exact loses_expectClosing hstop (by simp [hcomma])
      · have hlast : (anotherItem .rParen).Takes stop (before ++ newlines ++ taken) newlines' rest'
            false := anotherItem_takes_newlines hstop _ hnewlines' (by simp [hcomma, hrest'])
        exact hclosing (hrun.trans (series_eq_of_last hfirst hlast))

/-- If arguments behind an opening parenthesis are lost, so is one expression there. -/
theorem loses_parenBehind {opener : Token} {newlines : List Token} (hnewlines : Newlines newlines)
    (hrest : firstKind rest ≠ .newline)
    (h : Loses (TooDeep limit) (argumentsBehind (enterTo limit depth) opener)
      (between before (newlines ++ rest) stop)) :
    Loses (TooDeep limit)
      (do skipNewlines
          let inner ← expression (enterTo limit depth)
          skipNewlines
          let closer ← expectClosing .rParen opener
          return Expr.paren inner (opener.span.through closer.span))
      (between before (newlines ++ rest) stop) := by
  refine Loses.bind_of ?_ (skipNewlines_takes hstop hnewlines hrest)
  obtain hnone | ⟨target, selector, sign, others, rfl, hselector, hsign⟩ :=
    assignment?_cases (enterTo limit depth) (before ++ newlines) rest hstop
  · have hargument : (argument (enterTo limit depth)).run (between (before ++ newlines) rest stop) =
        (do return Argument.positional (← expression (enterTo limit depth))).run
          (between (before ++ newlines) rest stop) := by
      rw [argument, bind_eq hnone]
    obtain hlost | ⟨found, before', newlines', rest', hrun, hnewlines', hrest', hlost⟩ :=
      loses_argumentsBehind hstop (enterTo_sound limit depth) hnewlines hrest h
    · rw [Loses, hargument] at hlost
      obtain hlost | ⟨value, behind, -, error, other, hpure, -⟩ := Loses.of_bind hlost
      · exact hlost.bind _
      · cases hpure
    · rw [hargument] at hrun
      obtain ⟨value, middle, hvalue, hpure⟩ := bind_ok hrun
      obtain ⟨-, rfl⟩ := pure_ok hpure
      exact Loses.bind_of (Loses.bind_of (hlost.bind _)
        (skipNewlines_takes hstop hnewlines' hrest')) hvalue
  · -- a selector is read as an expression, and its equals sign is no closing parenthesis
    refine loses_of_selector hstop _ hselector hsign fun value before ahead hahead => ?_
    have hnewline : firstKind ahead ≠ .newline := by
      intro hk
      rw [hk] at hahead
      exact absurd hahead (by decide)
    refine Loses.bind_of ?_ (skipNewlines_takes_nil hstop hnewline)
    exact (loses_expectClosing hstop (List.mem_cons_of_mem _ hahead)).bind _

/-- What is lost where an operand starts is lost where an expression does. -/
theorem loses_chain {lost : SyntaxError → Prop} {enter : Enter} (least : Nat) {ahead : List Token}
    (hop : unaryOp? (firstKind ahead) = none) (harrow : ¬ ArrowAhead ahead)
    (h : Loses lost (primary enter) (between before ahead stop)) :
    Loses lost (chain enter least) (between before ahead stop) := by
  have hoperand : Loses lost (operand enter) (between before ahead stop) := by
    rw [operand, (peekKind_takes hstop).loses_nil_iff, hop]
    dsimp only
    rw [(atArrow_takes hstop).loses_nil_iff, if_neg (by simpa [ArrowAhead] using harrow)]
    exact h.bind _
  exact hoperand.bind _

end

/-- If arguments in parentheses are lost, so is a first argument in parentheses. -/
theorem losesBare (limit depth : Nat) : LosesBare (TooDeep limit) (enterTo limit depth) := by
  intro stream hstop hparen h
  obtain ⟨before, opener, rest, hstream, hopener⟩ :=
    exists_between_cons hstop hparen (by decide)
  rw [hstream, callArguments, Loses, bind_eq (expect_eq hstop hopener)] at h
  rw [hstream]
  have hsign : ¬ SignAhead (opener :: rest) := by
    rw [signAhead_cons_of_notMem (by rw [hopener]; decide), hopener]
    decide
  refine Loses.bind_of (Loses.bind ?_ _) (assignment?_eq_none hstop hsign)
  cases depth with
  | zero => exact ⟨_, _, rfl, .inl rfl⟩
  | succ depth =>
    obtain ⟨newlines, rest, rfl, hnewlines, hrest⟩ := exists_newlines rest
    refine loses_chain hstop 0 (by simp [hopener, unaryOp?]) (fun harrow => ?_) ?_
    · exact absurd (hopener.symm.trans harrow.1) (by decide)
    · rw [primary, (peek_takes opener).loses_nil_iff, hopener]
      exact Loses.bind_of (loses_parenBehind hstop hnewlines hrest h) (take_takes opener)

/-! ### Blocks -/

theorem loses_closing {α : Type} {lost : SyntaxError → Prop} {rule : Parse α}
    {stream : TokenStream} (hends : ∀ error, lost error → foundEnd error = false) (opener : Token)
    (h : Loses lost rule stream) : Loses lost (closing opener rule) stream := by
  obtain ⟨error, behind, hrun, hlost⟩ := h
  simp only [EStateM.run] at hrun
  refine ⟨error, behind, ?_, hlost⟩
  simp only [closing, EStateM.run, hrun, hends error hlost]
  rfl

section

variable {limit depth : Nat} {stop : Token} (hstop : stop.kind = .eof) {before : List Token}

include hstop

/-- A name with a colon behind it is an operator without arguments. -/
theorem statement_takes_name (before : List Token) {name colon : Token} (rest : List Token)
    (hname : name.kind = .identifier) (hcolon : colon.kind = .colon) : ∃ found,
      (statement (enterTo limit depth)).Takes stop before [name] (colon :: rest) found := by
  have hsign : ¬ SignAhead (name :: colon :: rest) := by
    rw [signAhead_cons_of_mem (by rw [hname]; decide),
      signAhead_cons_of_notMem (by rw [hcolon]; decide), hcolon]
    decide
  have hassignment : (assignmentStatement? (enterTo limit depth)).Takes stop before []
      (name :: colon :: rest) none := by
    have hnone : (assignment? (enterTo limit depth)).Takes stop before [] (name :: colon :: rest)
        none := by
      rw [Takes, List.append_nil]
      exact assignment?_eq_none hstop hsign
    exact hnone.bind_none (takes_pure _)
  have hpath : EntityAt before [name] (colon :: rest)
      ⟨[identifierOf name], name.span.through (endOf [name])⟩ :=
    ⟨.one hname, by simp [hcolon], rfl⟩
  have hentity : entity.Takes stop before [name] (colon :: rest) _ :=
    derived_entity hstop before hpath (by simp [hcolon])
  have harguments : (operatorArguments (enterTo limit depth)).Takes stop (before ++ [name]) []
      (colon :: rest) ([], false) := by
    refine (parenthesized?_takes_nil hstop _ (by simp [hcolon])).bind_none
      ((peekKind_takes hstop).bind_none ?_)
    rw [firstKind_cons, hcolon]
    exact takes_pure _
  have hblock : (operatorBlock (enterTo limit depth)).Takes stop (before ++ [name]) []
      (colon :: rest) (none, []) := by
    refine (isAt_takes hstop .lBrace).bind_none ?_
    rw [firstKind_cons, hcolon]
    exact takes_pure _
  obtain ⟨span, hspan⟩ := lastSpan_takes stop (before ++ [name]) (colon :: rest)
  have hstatement : ∀ {found}, (invocation (enterTo limit depth)).Takes stop before [name]
      (colon :: rest) found →
      (statement (enterTo limit depth)).Takes stop before [name] (colon :: rest) found := by
    intro found hinvocation
    refine (peekKind_takes hstop).bind_nil ?_
    rw [List.singleton_append, firstKind_cons, hname]
    refine hassignment.bind_nil ((isAt_takes hstop .identifier).bind_nil ?_)
    rw [List.singleton_append, firstKind_cons, hname]
    exact hinvocation
  exact ⟨_, hstatement (hentity.bind_pure (harguments.bind_none (hblock.bind_none
    (hspan.bind_none (takes_pure _)))))⟩

/-- Where a record comes, statements are lost. -/
theorem loses_pipeline {ahead : List Token}
    (h : firstKind ahead ∈ [TokenKind.rBrace, .ellipsis, .string] ∨
      firstKind ahead = .identifier ∧ secondKind ahead = .colon) :
    Loses (TooDeep limit) (pipeline (enterTo limit depth)) (between before ahead stop) := by
  refine Loses.bind ?_ _
  obtain hkind | ⟨hfirst, hsecond⟩ := h
  · refine Loses.series ?_
    rw [statement, (peekKind_takes hstop).loses_nil_iff]
    have hlost : Loses (TooDeep limit) (unexpected [.statement] : Parse Statement)
        (between before ahead stop) := loses_unexpected hstop (.brace hkind)
    simp only [List.mem_cons, List.not_mem_nil, or_false] at hkind
    obtain hk | hk | hk := hkind <;> rwa [hk]
  · obtain ⟨name, rest, rfl, hname⟩ := exists_cons_of_firstKind hfirst (by decide)
    obtain ⟨colon, rest, rfl, hcolon⟩ := exists_cons_of_firstKind hsecond (by decide)
    have hfound : ∃ found, (statement (enterTo limit depth)).Takes stop before [name]
        (colon :: rest) found := statement_takes_name hstop before rest hname hcolon
    obtain ⟨found, hfound⟩ := hfound
    refine loses_series_behind hfound ?_
    have hskip : (skip [.newline, .pipe]).Takes stop (before ++ [name]) [] (colon :: rest) false :=
      skip_takes hstop (by simp) (by simp [hcolon])
    rw [anotherStatement, hskip.loses_nil_iff, (isAt_takes hstop .rBrace).loses_nil_iff,
      firstKind_cons, hcolon]
    exact loses_unexpected hstop (by rw [firstKind_cons, hcolon]; exact .key)

end

/-- If arguments that start with a record are lost, so is a block in their place. -/
theorem losesBlock (limit limit' depth depth' : Nat) :
    LosesBlock (TooDeep limit) .zero (enterTo limit depth) (enterTo limit' depth') := by
  intro stream hstop hbrace _ hfound
  obtain ⟨before, brace, rest, hstream, hk⟩ := exists_between_cons hstop hbrace (by decide)
  obtain ⟨arguments, behind, hrun⟩ := hfound
  rw [Movable.moved_zero, hstream] at hrun
  have hrecord := recordAhead_of_bareArguments hstop hk hrun
  obtain ⟨newlines, rest, rfl, hnewlines, hrest⟩ := exists_newlines rest
  rw [RecordAhead, dropWhile_newlines hnewlines hrest] at hrecord
  rw [hstream, operatorBlock, (isAt_takes hstop .lBrace).loses_nil_iff, firstKind_cons, hk]
  refine Loses.bind_of (Loses.bind_of (Loses.bind ?_ _)
    (skipNewlines_takes hstop hnewlines hrest)) (take_takes brace)
  cases depth with
  | zero => exact ⟨_, _, rfl, .inl rfl⟩
  | succ depth =>
    have hend : firstKind rest ≠ .eof := by
      rintro heof
      rw [heof] at hrecord
      simp at hrecord
    show Loses (TooDeep limit) (pipelineBehind (enterTo limit depth) brace) _
    rw [pipelineBehind, (isAt_takes hstop .eof).loses_nil_iff,
      if_neg (by simpa using hend)]
    exact loses_closing (fun _ => TooDeep.foundEnd) brace (loses_pipeline hstop hrecord)

/-- Less may be nested in the same way, or the fault says so. -/
theorem entersTracking_limits {limit limit' depth depth' : Nat} (hle : depth ≤ depth') :
    EntersTracking (TooDeep limit) .zero (enterTo limit depth) (enterTo limit' depth') := by
  induction depth generalizing depth' with
  | zero => exact fun α goal stream _ => .inl ⟨_, _, rfl, .inl rfl⟩
  | succ depth ih =>
    obtain ⟨depth', rfl⟩ := Nat.exists_eq_add_of_le' hle
    have he : EntersTracking (TooDeep limit) .zero (enterTo limit depth)
        (enterTo limit' (depth' + depth)) := ih (Nat.le_add_left ..)
    exact entersTracking_rule he
      (tracks_invocation he (losesBare limit depth) (losesBlock limit limit' depth _))
      fun _ => TooDeep.foundEnd

end Grammar

end PipelineLang
