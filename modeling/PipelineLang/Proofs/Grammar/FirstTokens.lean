import PipelineLang.Proofs.Grammar.ExpressionSoundness

/-!
# The first tokens of expressions

An expression and an assignment may start with the same tokens. What tells them apart
is an equals sign behind a selector, which no expression holds at its head.

## Main definitions

- `Grammar.SignAhead` — an equals sign comes behind the tokens of a selector
- `Grammar.Unassigning` — tokens that bring no such sign

## Main results

- `Grammar.assignment?_eq_none` — where no sign comes, no assignment is read
- `Grammar.unassigning_expression` — an expression brings no sign
- `Grammar.startsArgument_expression` — the tokens that expressions start with
-/

namespace PipelineLang

open TokenStream Parse Shape

namespace Grammar

/-- The kinds of the tokens of selectors. -/
def selectorKinds : List TokenKind := [.identifier, .dot, .question, .kwThis, .atSign]

/-- Whether an equals sign comes behind any tokens of a selector. -/
def SignAhead (ahead : List Token) : Prop :=
  firstKind (ahead.dropWhile fun token => selectorKinds.contains token.kind) = .assign

/-- Tokens that bring no equals sign behind a selector. -/
def Unassigning (tokens : List Token) : Prop :=
  ∀ ahead, ¬ SignAhead ahead → ¬ SignAhead (tokens ++ ahead)

@[simp] theorem not_signAhead_nil : ¬ SignAhead [] := by simp [SignAhead]

theorem signAhead_cons_of_mem {token : Token} {ahead : List Token}
    (h : token.kind ∈ selectorKinds) : SignAhead (token :: ahead) ↔ SignAhead ahead := by
  simp [SignAhead, h]

theorem signAhead_cons_of_notMem {token : Token} {ahead : List Token}
    (h : token.kind ∉ selectorKinds) : SignAhead (token :: ahead) ↔ token.kind = .assign := by
  simp [SignAhead, h]

theorem signAhead_append {tokens ahead : List Token}
    (h : ∀ token ∈ tokens, token.kind ∈ selectorKinds) :
    SignAhead (tokens ++ ahead) ↔ SignAhead ahead := by
  induction tokens with
  | nil => rfl
  | cons token tokens ih =>
    rw [List.forall_mem_cons] at h
    rw [List.cons_append, signAhead_cons_of_mem h.1, ih h.2]

theorem unassigning_nil : Unassigning [] := fun _ h => h

theorem Unassigning.append {tokens others : List Token} (h₁ : Unassigning tokens)
    (h₂ : Unassigning others) : Unassigning (tokens ++ others) := by
  intro ahead h
  rw [List.append_assoc]
  exact h₁ _ (h₂ _ h)

/-- What stands behind a token that is in no selector does not matter. -/
theorem unassigning_cons {token : Token} (tokens : List Token)
    (h : token.kind ∉ selectorKinds) (hsign : token.kind ≠ .assign) :
    Unassigning (token :: tokens) := by
  intro ahead _
  rw [List.cons_append, signAhead_cons_of_notMem h]
  exact hsign

theorem unassigning_singleton {token : Token} (h : token.kind ≠ .assign) :
    Unassigning [token] := by
  by_cases hmem : token.kind ∈ selectorKinds
  · intro ahead hahead
    rwa [List.singleton_append, signAhead_cons_of_mem hmem]
  · exact unassigning_cons [] hmem h

/-- Tokens that are no equals signs bring none. -/
theorem unassigning_of_forall {tokens : List Token}
    (h : ∀ token ∈ tokens, token.kind ≠ .assign) : Unassigning tokens := by
  induction tokens with
  | nil => exact unassigning_nil
  | cons token tokens ih =>
    rw [List.forall_mem_cons] at h
    exact (unassigning_singleton h.1).append (ih h.2)

theorem unassigning_newlines {tokens : List Token} (h : Newlines tokens) :
    Unassigning tokens := by
  cases tokens with
  | nil => exact unassigning_nil
  | cons token tokens =>
    have hk : token.kind = .newline := h token (by simp)
    exact unassigning_cons tokens (by rw [hk]; decide) (by rw [hk]; decide)

/-! ### Selectors -/

theorem Step.kinds {tokens : List Token} {segment : FieldSegment} (h : Step tokens segment) :
    ∀ token ∈ tokens, token.kind ∈ selectorKinds := by
  cases h with
  | plain hname => simp [hname, selectorKinds]
  | optional hname hmark => simp [hname, hmark, selectorKinds]

theorem Steps.kinds {tokens : List Token} {segments : List FieldSegment}
    (h : Steps tokens segments) : ∀ token ∈ tokens, token.kind ∈ selectorKinds := by
  induction h with
  | one hstep => exact hstep.kinds
  | more hstep hdot _ ih =>
    intro token htoken
    rw [List.mem_append, List.mem_cons] at htoken
    obtain htoken | rfl | htoken := htoken
    · exact hstep.kinds token htoken
    · simp [hdot, selectorKinds]
    · exact ih token htoken

theorem SelectorOf.kinds {tokens : List Token} {selector : Selector}
    (h : SelectorOf tokens selector) : ∀ token ∈ tokens, token.kind ∈ selectorKinds := by
  cases h with
  | metadata hsign hname => simp [hsign, hname, selectorKinds]
  | root hthis => simp [hthis, selectorKinds]
  | rooted hthis hdot hsteps =>
    rw [List.forall_mem_cons, List.forall_mem_cons]
    exact ⟨by simp [hthis, selectorKinds], by simp [hdot, selectorKinds], hsteps.kinds⟩
  | path hsteps => exact hsteps.kinds

end Grammar

namespace Parse

variable {α β : Type}

/-- A rule that never fails. -/
def Total (rule : Parse α) : Prop :=
  ∀ stream, ∃ a behind, rule.run stream = .ok a behind

theorem Total.bind {rule : Parse α} {next : α → Parse β} (h : rule.Total)
    (hnext : ∀ a, (next a).Total) : (rule >>= next).Total := by
  intro stream
  obtain ⟨a, middle, hrun⟩ := h stream
  obtain ⟨b, behind, hlast⟩ := hnext a middle
  exact ⟨b, behind, by rw [bind_eq hrun, hlast]⟩

theorem total_pure (a : α) : (pure a : Parse α).Total := fun stream => ⟨a, stream, rfl⟩

theorem total_peek : peek.Total := fun stream => ⟨_, stream, rfl⟩

theorem total_peekKind : peekKind.Total := fun stream => ⟨_, stream, rfl⟩

theorem total_peekSecond : peekSecond.Total := fun stream => ⟨_, stream, rfl⟩

theorem total_lastSpan : lastSpan.Total := fun stream => ⟨_, stream, rfl⟩

theorem total_take : take.Total := fun _ => ⟨_, _, rfl⟩

theorem total_eat (kind : TokenKind) : (eat kind).Total := by
  refine Total.bind (fun stream => ⟨_, stream, rfl⟩) fun found => ?_
  cases found with
  | true => exact total_take.bind fun _ => total_pure _
  | false => exact total_pure _

theorem total_eats (kind : TokenKind) : (eats kind).Total :=
  (total_eat kind).bind fun _ => total_pure _

theorem Total.commit {rule : Parse (Option α)} (h : rule.Total) : (Parse.commit rule).Total := by
  intro stream
  obtain ⟨found, behind, hrun⟩ := h stream
  cases found with
  | some a => exact ⟨some a, behind, commit_eq_some hrun⟩
  | none => exact ⟨none, stream, commit_eq_none _ hrun⟩

theorem Total.series {item : Parse α} {again : Parse Bool} (hitem : item.Total)
    (hagain : again.Total) : (Parse.series item again).Total := by
  have hharvest : ∀ turns stream, (harvest item again turns stream).error = none := by
    intro turns
    induction turns with
    | zero => exact fun _ => rfl
    | succ turns ih =>
      intro stream
      obtain ⟨a, middle, hrun⟩ := hitem stream
      obtain ⟨found, behind, hmore⟩ := hagain middle
      simp only [EStateM.run] at hrun hmore
      cases found with
      | false => simp only [harvest, hrun, hmore]
      | true => simp only [harvest, hrun, hmore, ih]
  intro stream
  refine ⟨(harvestAll item again stream).items, (harvestAll item again stream).behind, ?_⟩
  simp only [Parse.series, harvestAll, EStateM.run, hharvest]

end Parse

namespace Grammar

theorem total_anotherFieldStep : anotherFieldStep.Total := by
  refine Total.bind (total_peekKind.bind fun kind => ?_) fun found => ?_
  · cases kind == .dot with
    | false => exact total_pure _
    | true => exact total_peekSecond.bind fun _ => total_pure _
  · cases found with
    | false => exact total_pure _
    | true => exact total_take.bind fun _ => total_pure _

theorem total_fieldPath (start : Span) (rooted : Bool) : (fieldPath start rooted).Total :=
  ((total_take.bind fun _ => (total_eats _).bind fun _ => total_pure _).series
    total_anotherFieldStep).bind fun _ => total_lastSpan.bind fun _ => total_pure _

theorem total_selector? : selector?.Total := by
  refine Total.commit (total_peek.bind fun first => ?_)
  split
  · refine total_take.bind fun _ => (total_eat _).bind fun name => ?_
    cases name <;> exact total_pure _
  · refine total_take.bind fun _ => total_anotherFieldStep.bind fun found => ?_
    cases found with
    | false => exact total_pure _
    | true => exact (total_fieldPath _ _).bind fun _ => total_pure _
  · exact (total_fieldPath _ _).bind fun _ => total_pure _
  · exact total_pure _

/-- Unless no assignment is read, a selector with an equals sign behind it comes. -/
theorem assignment?_cases (enter : Enter) (before ahead : List Token) {stop : Token}
    (hstop : stop.kind = .eof) :
    (assignment? enter).run (between before ahead stop) = .ok none (between before ahead stop) ∨
    ∃ target selector sign rest, ahead = target ++ sign :: rest ∧ SelectorOf target selector ∧
      sign.kind = .assign := by
  obtain ⟨found, behind, hrun⟩ := total_selector? (between before ahead stop)
  rw [assignment?]
  obtain ⟨taken, rest, rfl, rfl, ⟨selector, rfl, hselector⟩ | ⟨rfl, rfl⟩⟩ :=
    selector?_yields hstop hrun
  · by_cases hsign : firstKind rest = .assign
    · obtain ⟨sign, rest, rfl, hk⟩ := exists_cons_of_firstKind hsign (by decide)
      exact .inr ⟨taken, selector, sign, rest, rfl, hselector, hk⟩
    · refine .inl ((bind_eq (commit_eq_none (between (before ++ taken) rest stop)
        ((bind_eq hrun).trans ?_))).trans rfl)
      exact (bind_eq (eats_eq_false hstop hsign)).trans rfl
  · refine .inl ((bind_eq (commit_eq_none (between (before ++ []) rest stop)
      ((bind_eq hrun).trans ?_))).trans rfl)
    rfl

/-- Where no equals sign comes behind a selector, no assignment is read. -/
theorem assignment?_eq_none {enter : Enter} {before ahead : List Token} {stop : Token}
    (hstop : stop.kind = .eof) (h : ¬ SignAhead ahead) :
    (assignment? enter).run (between before ahead stop) =
      .ok none (between before ahead stop) := by
  obtain hnone | ⟨target, selector, sign, rest, rfl, hselector, hsign⟩ :=
    assignment?_cases enter before ahead hstop
  · exact hnone
  · rw [signAhead_append hselector.kinds, signAhead_cons_of_notMem (by rw [hsign]; decide)] at h
    exact absurd hsign h

/-! ### Expressions -/

theorem Path.unassigning {tokens : List Token} {names : List Identifier} (h : Path tokens names) :
    Unassigning tokens := by
  cases h with
  | one hname => exact unassigning_singleton (by simp [hname])
  | more hname hseparator hnames =>
    exact (unassigning_singleton (by simp [hname])).append
      (unassigning_cons _ (by simp [hseparator, selectorKinds]) (by simp [hseparator]))

theorem Path.firstKind {tokens : List Token} {names : List Identifier} (h : Path tokens names)
    (others : List Token) : PipelineLang.firstKind (tokens ++ others) = .identifier := by
  cases h with
  | one hname => exact hname
  | more hname _ _ => exact hname

section

variable {nested : Nested} {before taken ahead : List Token}

theorem CallAt.unassigning {call : Entity × List Argument}
    (h : CallAt nested before taken ahead call) : Unassigning taken := by
  obtain ⟨⟨hpath, -⟩, ⟨hopener, -⟩⟩ := h
  exact hpath.unassigning.append
    (unassigning_cons _ (by simp [hopener, selectorKinds]) (by simp [hopener]))

theorem PrimaryAt.unassigning {value : Expr} (h : PrimaryAt nested before taken ahead value) :
    Unassigning taken := by
  cases h with
  | literal hvalue =>
    exact unassigning_singleton fun hk => by simp [hk, Literal.ofText?] at hvalue
  | format htoken _ _ => exact unassigning_singleton (by simp [htoken])
  | call hcall => exact hcall.unassigning
  | name htoken _ => exact unassigning_singleton (by simp [htoken])
  | dollar htoken => exact unassigning_singleton (by simp [htoken])
  | this htoken => exact unassigning_singleton (by simp [htoken])
  | metadata hsign hname =>
    exact (unassigning_singleton (by simp [hsign])).append (unassigning_singleton (by simp [hname]))
  | list hopener _ _ =>
    exact unassigning_cons _ (by simp [hopener, selectorKinds]) (by simp [hopener])
  | record hopener _ _ =>
    exact unassigning_cons _ (by simp [hopener, selectorKinds]) (by simp [hopener])
  | paren hopener _ _ _ _ =>
    exact unassigning_cons _ (by simp [hopener, selectorKinds]) (by simp [hopener])

theorem SuffixAt.unassigning {suffix : Suffix} (h : SuffixAt nested before taken ahead suffix) :
    Unassigning taken := by
  cases h with
  | member hdot hname _ =>
    exact (unassigning_singleton (by simp [hdot])).append (unassigning_singleton (by simp [hname]))
  | memberBehind hdot hname hmark =>
    exact (unassigning_singleton (by simp [hdot])).append
      ((unassigning_singleton (by simp [hname])).append (unassigning_singleton (by simp [hmark])))
  | memberAhead hdot hname =>
    exact unassigning_cons _ (by simp [hdot, selectorKinds]) (by simp [hdot])
  | call hdot hcall => exact (unassigning_singleton (by simp [hdot])).append hcall.unassigning
  | index hopener _ _ _ _ =>
    exact unassigning_cons _ (by simp [hopener, selectorKinds]) (by simp [hopener])
  | optionalIndex hopener _ _ _ _ _ =>
    exact unassigning_cons _ (by simp [hopener, selectorKinds]) (by simp [hopener])

theorem unassigning_many {α : Type} {item : Shape α} {items : List α}
    (hitem : ∀ {before taken ahead a}, item before taken ahead a → Unassigning taken)
    (h : Many item before taken ahead items) : Unassigning taken := by
  induction h with
  | nil => exact unassigning_nil
  | cons h _ ih => exact (hitem h).append ih

theorem SuffixedAt.unassigning {value : Expr} (h : SuffixedAt nested before taken ahead value) :
    Unassigning taken := by
  obtain ⟨hreceiver, hsuffixes, -⟩ := h
  exact hreceiver.unassigning.append (unassigning_many SuffixAt.unassigning hsuffixes)

theorem OperandAt.unassigning {value : Expr} (h : OperandAt nested before taken ahead value) :
    Unassigning taken := by
  cases h with
  | unary hopener _ =>
    refine unassigning_cons _ (fun hmem => ?_) (fun hk => by simp [hk, unaryOp?] at hopener)
    simp only [selectorKinds, List.mem_cons, List.not_mem_nil, or_false] at hmem
    obtain hk | hk | hk | hk | hk := hmem <;> simp [hk, unaryOp?] at hopener
  | lambda hparameter harrow _ _ =>
    exact (unassigning_singleton (by simp [hparameter])).append
      (unassigning_cons _ (by simp [harrow, selectorKinds]) (by simp [harrow]))
  | plain _ _ hoperand => exact hoperand.unassigning

theorem LinkAt.unassigning {least : Nat} {link : BinaryOp × Expr}
    (h : LinkAt nested least before taken ahead link) : Unassigning taken := by
  obtain ⟨hsign, -, -, -⟩ := h
  rename_i sign leading tokens op right
  cases sign with
  | nil => exact absurd hsign.symm (BinaryOp.kinds_ne_nil op)
  | cons token sign =>
    have hmem : token.kind ∈ op.kinds := by rw [← hsign]; simp
    refine unassigning_cons (sign ++ leading ++ tokens) (fun hk => ?_) (fun hk => ?_) <;>
      cases op <;> simp_all [BinaryOp.kinds, selectorKinds]

theorem ChainAt.unassigning {least : Nat} {value : Expr}
    (h : ChainAt nested least before taken ahead value) : Unassigning taken := by
  obtain ⟨hfirst, hlinks, -⟩ := h
  exact hfirst.unassigning.append (unassigning_many LinkAt.unassigning hlinks)

end

/-- An expression brings no equals sign behind a selector. -/
theorem unassigning_expression {depth least : Nat} {before taken ahead : List Token} {value : Expr}
    (h : nestedTo depth _ (.expression least) before taken ahead value) : Unassigning taken := by
  cases depth with
  | zero => exact h.elim
  | succ depth => exact ChainAt.unassigning h

section

variable {nested : Nested} {before taken ahead : List Token}

theorem PrimaryAt.startsArgument {value : Expr} (h : PrimaryAt nested before taken ahead value) :
    Grammar.startsArgument (firstKind taken) := by
  cases h with
  | @literal _ token _ _ hvalue =>
    rw [firstKind_cons]
    cases hk : token.kind <;> simp [hk, Literal.ofText?] at hvalue <;> decide
  | call hcall =>
    obtain ⟨⟨hpath, -⟩, -⟩ := hcall
    rw [hpath.firstKind]
    decide
  | format htoken _ _ | name htoken _ | dollar htoken | this htoken =>
    rw [firstKind_cons, htoken]
    decide
  | metadata hopener _ | list hopener _ _ | record hopener _ _ | paren hopener _ _ _ _ =>
    rw [firstKind_cons, hopener]
    decide

theorem firstKind_append {tokens others : List Token} (h : firstKind tokens ≠ .eof) :
    firstKind (tokens ++ others) = firstKind tokens := by
  cases tokens with
  | nil => exact absurd rfl h
  | cons token tokens => rfl

theorem ne_eof_of_startsArgument {kind : TokenKind} (h : Grammar.startsArgument kind) :
    kind ≠ .eof := by
  rintro rfl
  exact absurd h (by decide)

theorem ChainAt.startsArgument {least : Nat} {value : Expr}
    (h : ChainAt nested least before taken ahead value) :
    Grammar.startsArgument (firstKind taken) := by
  obtain ⟨hfirst, -, -⟩ := h
  cases hfirst with
  | @unary _ opener _ _ _ _ hopener _ =>
    rw [List.cons_append, firstKind_cons]
    cases hk : opener.kind <;> simp [hk, unaryOp?] at hopener <;> decide
  | lambda hparameter _ _ _ =>
    rw [List.cons_append, firstKind_cons, hparameter]
    decide
  | plain _ _ hoperand =>
    obtain ⟨hreceiver, -, -⟩ := hoperand
    have hstart := hreceiver.startsArgument
    rwa [List.append_assoc, firstKind_append (ne_eof_of_startsArgument hstart)]

end

/-- The tokens that expressions start with. -/
theorem startsArgument_expression {depth least : Nat} {before taken ahead : List Token}
    {value : Expr} (h : nestedTo depth _ (.expression least) before taken ahead value) :
    startsArgument (firstKind taken) := by
  cases depth with
  | zero => exact h.elim
  | succ depth => exact ChainAt.startsArgument h

end Grammar

end PipelineLang
