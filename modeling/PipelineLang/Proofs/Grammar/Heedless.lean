import PipelineLang.Grammar.Program
import PipelineLang.Proofs.Grammar.Reading

/-!
# What stands before a statement

A stream knows the place of the token just passed. A statement asks for it behind tokens of its
own only, so it is read in the same way whatever has been passed before it.

## Main definitions

- `Parse.Heedless` — a rule does not heed what has been passed before

## Main results

- `Grammar.takesFirst_statement` — a statement does not
- `Grammar.statementsToEnd_heedless` — and so the statements of a program do not

## Design notes

Behind a token of its own a rule may do anything, since it is then at one place. What is
followed is only what a rule may yield before it takes a token.
-/

namespace PipelineLang

namespace Parse

variable {α β : Type}

/-- The outcomes of a rule on two streams that only differ in what has been passed: a token has
been taken, or there is an error, or nothing has been taken and `P` holds of what is yielded. -/
inductive Coincide (P : α → Prop) (stream stream' : TokenStream) :
    EStateM.Result SyntaxError TokenStream α → EStateM.Result SyntaxError TokenStream α → Prop
  | taken (a) (behind) : Coincide P stream stream' (.ok a behind) (.ok a behind)
  | failed (error) (behind behind') :
    Coincide P stream stream' (.error error behind) (.error error behind')
  | left {a} (h : P a) : Coincide P stream stream' (.ok a stream) (.ok a stream')

/-- A rule does the same whatever has been passed before a token; `P` holds of what it yields
where it takes nothing. -/
def Heedless (P : α → Prop) (rule : Parse α) : Prop :=
  ∀ (token : Token) (rest : List Token) (last last' : Option Span) (stop : Token),
    Coincide P ⟨token :: rest, last, stop⟩ ⟨token :: rest, last', stop⟩
      (rule.run ⟨token :: rest, last, stop⟩) (rule.run ⟨token :: rest, last', stop⟩)

/-- A rule that takes a token or fails, and does the same whatever has been passed. -/
abbrev TakesFirst (rule : Parse α) : Prop := Heedless (fun _ => False) rule

variable {P : α → Prop} {Q : β → Prop} {rule : Parse α}

theorem Heedless.bind {next : α → Parse β} (h : Heedless P rule)
    (hnext : ∀ a, P a → Heedless Q (next a)) : Heedless Q (rule >>= next) := by
  intro token rest last last' stop
  have hrule := h token rest last last' stop
  generalize hrun : rule.run ⟨token :: rest, last, stop⟩ = found at hrule
  generalize hrun' : rule.run ⟨token :: rest, last', stop⟩ = found' at hrule
  cases hrule with
  | taken a behind =>
    rw [bind_eq hrun, bind_eq hrun']
    cases (next a).run behind with
    | ok b behind => exact .taken b behind
    | error error behind => exact .failed error behind behind
  | failed error behind behind' =>
    rw [bind_error hrun, bind_error hrun']
    exact .failed error behind behind'
  | left hP =>
    rw [bind_eq hrun, bind_eq hrun']
    exact hnext _ hP token rest last last' stop

/-- Behind a token of its own, a rule may go on in any way. -/
theorem TakesFirst.bind (h : TakesFirst rule) (next : α → Parse β) : Heedless Q (rule >>= next) :=
  Heedless.bind h fun _ hnone => hnone.elim

theorem heedless_pure {a : α} (h : P a) : Heedless P (pure a) :=
  fun _ _ _ _ _ => .left h

/-- A rule that looks at what is ahead. -/
theorem heedless_look {look : TokenStream → α}
    (h : ∀ token rest last last' stop,
      look ⟨token :: rest, last, stop⟩ = look ⟨token :: rest, last', stop⟩) :
    Heedless (fun _ => True) fun stream => .ok (look stream) stream := by
  intro token rest last last' stop
  show Coincide _ _ _ (.ok (look _) _) (.ok (look _) _)
  rw [h token rest last last' stop]
  exact .left trivial

theorem heedless_peek : Heedless (fun _ => True) peek := heedless_look fun _ _ _ _ _ => rfl

theorem heedless_peekKind : Heedless (fun _ => True) peekKind := heedless_look fun _ _ _ _ _ => rfl

theorem heedless_isAt (kind : TokenKind) : Heedless (fun _ => True) (isAt kind) :=
  heedless_look fun _ _ _ _ _ => rfl

theorem takesFirst_take : TakesFirst take := fun _ _ _ _ _ => .taken _ _

theorem takesFirst_unexpected (expected : List Expectation) :
    TakesFirst (unexpected expected : Parse α) := fun _ _ _ _ _ => .failed _ _ _

theorem heedless_ite {rule' : Parse α} {p : Prop} [Decidable p] (h : Heedless P rule)
    (h' : Heedless P rule') : Heedless P (if p then rule else rule') := by
  split
  · exact h
  · exact h'

theorem heedless_eat (kind : TokenKind) : Heedless (· = none) (eat kind) :=
  (heedless_isAt kind).bind fun _ _ =>
    heedless_ite (takesFirst_take.bind _) (heedless_pure rfl)

theorem takesFirst_expect (kind : TokenKind) : TakesFirst (expect kind) := by
  refine (heedless_eat kind).bind fun found hnone => ?_
  subst hnone
  exact takesFirst_unexpected _

theorem heedless_commit {rule : Parse (Option α)} (h : Heedless (· = none) rule) :
    Heedless (· = none) (commit rule) := by
  intro token rest last last' stop
  have hrule := h token rest last last' stop
  simp only [commit, EStateM.run] at hrule ⊢
  generalize rule ⟨token :: rest, last, stop⟩ = found at hrule
  generalize rule ⟨token :: rest, last', stop⟩ = found' at hrule
  cases hrule with
  | @taken a behind =>
    cases a with
    | some a => exact .taken (some a) behind
    | none => exact .left rfl
  | failed error behind behind' => exact .failed error behind behind'
  | left hnone =>
    subst hnone
    exact .left rfl

/-- A series of items that are read in the same way starts with such an item. -/
theorem harvest_heedless {item : Parse α} (h : TakesFirst item) (again : Parse Bool) (turns : Nat)
    (token : Token) (rest : List Token) (last last' : Option Span) (stop : Token) :
    (harvest item again turns ⟨token :: rest, last, stop⟩).items =
        (harvest item again turns ⟨token :: rest, last', stop⟩).items ∧
      (harvest item again turns ⟨token :: rest, last, stop⟩).error =
        (harvest item again turns ⟨token :: rest, last', stop⟩).error := by
  cases turns with
  | zero => exact ⟨rfl, rfl⟩
  | succ turns =>
    have hitem := h token rest last last' stop
    simp only [EStateM.run] at hitem
    simp only [harvest]
    generalize item ⟨token :: rest, last, stop⟩ = found at hitem
    generalize item ⟨token :: rest, last', stop⟩ = found' at hitem
    cases hitem with
    | taken a behind => exact ⟨rfl, rfl⟩
    | failed error behind behind' => exact ⟨rfl, rfl⟩
    | left hnone => exact hnone.elim

theorem takesFirst_series {item : Parse α} (h : TakesFirst item) (again : Parse Bool) :
    TakesFirst (series item again) := by
  intro token rest last last' stop
  have hitem := h token rest last last' stop
  simp only [EStateM.run] at hitem
  simp only [series, harvestAll, harvest, EStateM.run]
  generalize item ⟨token :: rest, last, stop⟩ = found at hitem
  generalize item ⟨token :: rest, last', stop⟩ = found' at hitem
  cases hitem with
  | failed error behind behind' => exact .failed error behind behind'
  | left hnone => exact hnone.elim
  | taken a behind =>
    dsimp only
    cases again behind with
    | error error behind => exact .failed error behind behind
    | ok found behind =>
      cases found with
      | false => exact .taken [a] behind
      | true =>
        dsimp only
        cases (harvest item again rest.length.succ behind).error with
        | none => exact .taken _ _
        | some error => exact .failed error _ _

end Parse

namespace Grammar

open Parse

theorem takesFirst_identifier : TakesFirst identifier := (takesFirst_expect _).bind _

theorem takesFirst_entity : TakesFirst entity :=
  (takesFirst_series takesFirst_identifier _).bind _

theorem takesFirst_fieldPath (start : Span) (rooted : Bool) :
    TakesFirst (fieldPath start rooted) :=
  (takesFirst_series (takesFirst_take.bind _) _).bind _

theorem heedless_selector? : Heedless (· = none) selector? := by
  refine heedless_commit (heedless_peek.bind fun first _ => ?_)
  split
  · exact takesFirst_take.bind _
  · exact takesFirst_take.bind _
  · exact (takesFirst_fieldPath _ _).bind _
  · exact heedless_pure rfl

variable (enter : Enter)

theorem heedless_assignment? : Heedless (· = none) (assignment? enter) := by
  refine Heedless.bind (heedless_commit (heedless_selector?.bind fun found hnone => ?_))
    fun target hnone => ?_
  · subst hnone
    exact heedless_pure rfl
  · subst hnone
    exact heedless_pure rfl

theorem takesFirst_assignmentOrInvocation : TakesFirst (assignmentOrInvocation enter) := by
  have hassignment : Heedless (· = none) (assignmentStatement? enter) := by
    refine (heedless_assignment? enter).bind fun found hnone => ?_
    subst hnone
    exact heedless_pure rfl
  refine hassignment.bind fun found hnone => ?_
  subst hnone
  refine (heedless_isAt _).bind fun _ _ => heedless_ite (takesFirst_entity.bind _) ?_
  refine heedless_selector?.bind fun found hnone => ?_
  subst hnone
  exact takesFirst_unexpected _

/-- A statement is read in the same way whatever stands before it. -/
theorem takesFirst_statement : TakesFirst (statement enter) := by
  refine heedless_peekKind.bind fun kind _ => ?_
  split
  · exact takesFirst_take.bind _
  · exact Heedless.bind (takesFirst_take.bind _ : TakesFirst (conditional enter))
      fun _ hnone => hnone.elim
  · exact takesFirst_take.bind _
  · exact takesFirst_assignmentOrInvocation enter
  · exact takesFirst_assignmentOrInvocation enter
  · exact takesFirst_assignmentOrInvocation enter
  · exact takesFirst_unexpected _

/-- The statements of a program are the same, and so is what is wrong with them, whatever
stands before them. -/
theorem statementsToEnd_heedless (before before' ahead : List Token) {stop : Token}
    (hstop : stop.kind = .eof) :
    (statementsToEnd enter (.between before ahead stop)).items =
        (statementsToEnd enter (.between before' ahead stop)).items ∧
      (statementsToEnd enter (.between before ahead stop)).error =
        (statementsToEnd enter (.between before' ahead stop)).error := by
  rw [statementsToEnd, statementsToEnd]
  cases ahead with
  | nil =>
    rw [TokenStream.peek_between_nil, TokenStream.peek_between_nil, if_pos hstop, if_pos hstop]
    exact ⟨rfl, rfl⟩
  | cons token rest =>
    rw [TokenStream.peek_between_cons, TokenStream.peek_between_cons]
    split
    · exact ⟨rfl, rfl⟩
    · exact harvest_heedless (takesFirst_statement enter) _ _ token rest _ _ stop

end Grammar

end PipelineLang
