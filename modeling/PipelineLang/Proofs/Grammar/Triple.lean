import PipelineLang.Grammar.Program
import PipelineLang.Proofs.Grammar.Rule

/-!
# Triples

What holds before a rule, what holds behind it, and what holds of its error and of the stream
where it has failed. The last of these differs from one property of the grammar to the next, so
it is a parameter here.

## Main definitions

- `Parse.Triple` — what holds of the streams before and behind a rule, and of its errors

## Main results

- `Parse.Triple.bind`, `Parse.Triple.consequence` — one rule after another, and a weaker statement
- `Parse.Triple.isAt`, `Parse.Triple.eat`, `Parse.Triple.expect` — rules for single tokens
- `Parse.Triple.attempt`, `Parse.Triple.commit` — rules that may leave the stream as it was
- `Parse.Triple.harvest`, `Parse.Triple.series` — a rule again and again
- `Program.error_of_triple` — the error of tokens that are no program
-/

namespace PipelineLang

namespace Parse

variable {α β : Type} {E : SyntaxError → TokenStream → Prop} {P : TokenStream → Prop}
  {Q : α → TokenStream → Prop} {R : β → TokenStream → Prop} {stream behind : TokenStream}

/-- Where `P` holds of a stream, a rule yields something such that `Q` holds of it and the stream
behind, or `E` holds of its error and the stream there. -/
def Triple (E : SyntaxError → TokenStream → Prop) (P : TokenStream → Prop) (rule : Parse α)
    (Q : α → TokenStream → Prop) : Prop :=
  ∀ stream, P stream → match rule.run stream with
    | .ok a behind => Q a behind
    | .error error behind => E error behind

/-! ### Rules -/

section

variable {rule : Parse α} {next : α → Parse β}

theorem Triple.of_ok (h : Triple E P rule Q) (hstream : P stream) {a : α}
    (hrun : rule.run stream = .ok a behind) : Q a behind := by
  have hrule := h stream hstream
  rwa [hrun] at hrule

theorem Triple.of_error (h : Triple E P rule Q) (hstream : P stream) {error : SyntaxError}
    (hrun : rule.run stream = .error error behind) : E error behind := by
  have hrule := h stream hstream
  rwa [hrun] at hrule

theorem Triple.bind (h : Triple E P rule Q) (hnext : ∀ a, Triple E (Q a) (next a) R) :
    Triple E P (rule >>= next) R := by
  intro stream hstream
  cases hrun : rule.run stream with
  | ok a middle =>
    rw [bind_eq hrun]
    exact hnext a middle (h.of_ok hstream hrun)
  | error error behind =>
    rw [bind_error hrun]
    exact h.of_error hstream hrun

theorem Triple.consequence {E' : SyntaxError → TokenStream → Prop} {P' : TokenStream → Prop}
    {Q' : α → TokenStream → Prop} (h : Triple E P rule Q)
    (hE : ∀ error behind, E error behind → E' error behind)
    (hP : ∀ stream, P' stream → P stream) (hQ : ∀ a behind, Q a behind → Q' a behind) :
    Triple E' P' rule Q' := by
  intro stream hstream
  cases hrun : rule.run stream with
  | ok a behind => exact hQ a behind (h.of_ok (hP stream hstream) hrun)
  | error error behind => exact hE error behind (h.of_error (hP stream hstream) hrun)

theorem Triple.pre {P' : TokenStream → Prop} (h : Triple E P rule Q)
    (hP : ∀ stream, P' stream → P stream) : Triple E P' rule Q :=
  h.consequence (fun _ _ h => h) hP fun _ _ h => h

theorem Triple.post {Q' : α → TokenStream → Prop} (h : Triple E P rule Q)
    (hQ : ∀ a behind, Q a behind → Q' a behind) : Triple E P rule Q' :=
  h.consequence (fun _ _ h => h) (fun _ h => h) hQ

/-- A fact that does not depend on the stream. -/
theorem Triple.lift {p : Prop} (h : p → Triple E P rule Q) :
    Triple E (fun stream => p ∧ P stream) rule Q := fun stream hstream =>
  h hstream.1 stream hstream.2

theorem triple_pure {a : α} (h : ∀ stream, P stream → Q a stream) : Triple E P (pure a) Q := h

theorem Triple.map {P' : TokenStream → Prop} (h : Triple E P rule fun _ => P') (f : α → β) :
    Triple E P (f <$> rule) fun _ => P' := by
  rw [← bind_pure_comp]
  exact h.bind fun _ => triple_pure fun _ h => h

theorem triple_ite {rule' : Parse α} {p : Prop} [Decidable p] (h : Triple E P rule Q)
    (h' : Triple E P rule' Q) : Triple E P (if p then rule else rule') Q := by
  split
  · exact h
  · exact h'

/-- A rule that does not fail. -/
theorem triple_of_ok
    (h : ∀ stream, P stream → ∃ a behind, rule.run stream = .ok a behind ∧ Q a behind) :
    Triple E P rule Q := by
  intro stream hstream
  obtain ⟨a, behind, hrun, hbehind⟩ := h stream hstream
  rw [hrun]
  exact hbehind

end

/-! ### Single tokens -/

/-- A rule that goes on in one of two ways. -/
theorem Triple.isAt {kind : TokenKind} {yes no : Parse α}
    (h : Triple E (fun stream => P stream ∧ stream.peek.kind = kind) yes Q)
    (h' : Triple E (fun stream => P stream ∧ stream.peek.kind ≠ kind) no Q) :
    Triple E P (do if ← Parse.isAt kind then yes else no) Q := by
  have hat : Triple E P (Parse.isAt kind) fun found stream =>
      P stream ∧ (found = true ↔ stream.peek.kind = kind) :=
    fun _ hstream => ⟨hstream, beq_iff_eq⟩
  refine hat.bind fun found => ?_
  cases found with
  | true => exact h.pre fun _ hstream => ⟨hstream.1, hstream.2.mp rfl⟩
  | false =>
    refine h'.pre fun _ hstream => ⟨hstream.1, fun hkind => ?_⟩
    exact Bool.false_ne_true (hstream.2.mpr hkind)

/-- A rule that first looks at the kind of the next token. -/
theorem Triple.peekKind {next : TokenKind → Parse β}
    (h : ∀ kind, Triple E (fun stream => P stream ∧ stream.peek.kind = kind) (next kind) R) :
    Triple E P (Parse.peekKind >>= next) R :=
  fun stream hstream => h stream.peek.kind stream ⟨hstream, rfl⟩

/-- A rule that first looks at the next token. -/
theorem Triple.peek {next : Token → Parse β}
    (h : ∀ token, Triple E (fun stream => P stream ∧ stream.peek = token) (next token) R) :
    Triple E P (Parse.peek >>= next) R :=
  fun stream hstream => h stream.peek stream ⟨hstream, rfl⟩

/-- A token is taken if it has some kind, and the stream stays before any other one. -/
theorem Triple.eat {kind : TokenKind} {Q : Option Token → TokenStream → Prop}
    (h : Triple E (fun stream => P stream ∧ stream.peek.kind = kind) take (Q ∘ some))
    (hnone : ∀ stream, P stream → stream.peek.kind ≠ kind → Q none stream) :
    Triple E P (Parse.eat kind) Q :=
  Triple.isAt (h.bind fun _ => triple_pure fun _ h => h)
    (triple_pure fun stream h => hnone stream h.1 h.2)

/-- A token of some kind is taken, or the rule fails where it is. -/
theorem Triple.expect {kind : TokenKind} {Q : Token → TokenStream → Prop}
    (h : Triple E (fun stream => P stream ∧ stream.peek.kind = kind) take Q)
    (hfail : Triple E (fun stream => P stream ∧ stream.peek.kind ≠ kind)
      (unexpected [.token kind] : Parse Token) Q) :
    Triple E P (Parse.expect kind) Q := by
  have heat : Triple E P (Parse.eat kind) fun found stream =>
      found.elim (P stream ∧ stream.peek.kind ≠ kind) (Q · stream) :=
    Triple.eat h fun _ hstream hkind => ⟨hstream, hkind⟩
  refine heat.bind fun found => ?_
  cases found with
  | some token => exact triple_pure fun _ h => h
  | none => exact hfail

/-! ### Readings that may be given up -/

/-- A rule that may be given up does not fail itself, whatever `F` says of the errors. -/
theorem Triple.attempt {rule : Parse (Option α)} {F : SyntaxError → TokenStream → Prop}
    {Q : Option α → TokenStream → Prop}
    (h : Triple F P rule fun found stream => ∀ a ∈ found, Q (some a) stream)
    (hnone : ∀ stream, P stream → Q none stream) : Triple E P (attempt rule) Q := by
  refine triple_of_ok fun stream hstream => ?_
  by_cases hsome : ∃ a behind, rule.run stream = .ok (some a) behind
  · obtain ⟨a, behind, hrun⟩ := hsome
    exact ⟨_, _, attempt_eq_some hrun, h.of_ok hstream hrun a rfl⟩
  · -- The stream is put back, also where the rule has failed.
    simp only [not_exists] at hsome
    exact ⟨_, _, attempt_eq_none hsome, hnone stream hstream⟩

theorem Triple.commit {rule : Parse (Option α)} {Q : Option α → TokenStream → Prop}
    (h : Triple E P rule fun found stream => ∀ a ∈ found, Q (some a) stream)
    (hnone : ∀ stream, P stream → Q none stream) : Triple E P (commit rule) Q := by
  intro stream hstream
  cases hrun : rule.run stream with
  | ok found behind =>
    cases found with
    | some a =>
      rw [commit_eq_some hrun]
      exact h.of_ok hstream hrun a rfl
    | none =>
      rw [commit_eq_none behind hrun]
      exact hnone stream hstream
  | error error behind =>
    rw [commit_eq_error hrun]
    exact h.of_error hstream hrun

/-- A rule for another stream, which leaves this one where it is. -/
theorem Triple.within {rule : Parse α} {inner : TokenStream}
    (h : Triple (fun error _ => ∀ stream, P stream → E error stream) (· = inner) rule
      fun a _ => ∀ stream, P stream → Q a stream) :
    Triple E P (within inner rule) Q := by
  intro stream hstream
  cases hrun : rule.run inner with
  | ok a behind =>
    rw [within_eq_ok stream hrun]
    exact h.of_ok rfl hrun stream hstream
  | error error behind =>
    rw [within_eq_error stream hrun]
    exact h.of_error rfl hrun stream hstream

/-- An error at the end of the tokens is told anew, where the rule has failed. -/
theorem Triple.closing {rule : Parse α} {opener : Token} (h : Triple E P rule Q)
    (hend : ∀ error behind, E error behind → Grammar.foundEnd error →
      E ⟨.unclosed opener.kind opener.span, behind.peek.span⟩ behind) :
    Triple E P (Grammar.closing opener rule) Q := by
  intro stream hstream
  have hrule := h stream hstream
  rw [EStateM.run] at hrule ⊢
  rw [Grammar.closing]
  cases hrun : rule stream with
  | ok a behind =>
    rw [hrun] at hrule
    exact hrule
  | error error behind =>
    rw [hrun] at hrule
    dsimp only
    by_cases hfound : Grammar.foundEnd error
    · rw [if_pos hfound]
      exact hend error behind hrule hfound
    · rw [if_neg hfound]
      exact hrule

/-! ### Series -/

section

variable {item : Parse α} {again : Parse Bool} {M : TokenStream → Prop}

/-- Another item may come wherever the stream is behind one. -/
theorem Triple.more (h : Triple E M again fun _ => M) :
    Triple E M again fun more stream => M stream ∧ (more = true → M stream) :=
  h.post fun _ _ h => ⟨h, fun _ => h⟩

/-- What a series has left behind, and the error that has ended it. `M` holds behind each item, and
`P` before each of them. -/
theorem Triple.harvest (hitem : Triple E P item fun _ => M)
    (hagain : Triple E M again fun more stream => M stream ∧ (more = true → P stream))
    (hM : ∀ stream, P stream → M stream) (turns : Nat) (hstream : P stream) :
    (harvest item again turns stream).error.elim
      (M (Parse.harvest item again turns stream).behind)
      (E · (Parse.harvest item again turns stream).behind) := by
  induction turns generalizing stream with
  | zero => exact hM stream hstream
  | succ turns ih =>
    rw [Parse.harvest]
    cases hrun : item stream with
    | error error behind => exact hitem.of_error hstream hrun
    | ok a middle =>
      have hmiddle : M middle := hitem.of_ok hstream hrun
      dsimp only
      cases hmore : again middle with
      | error error behind => exact hagain.of_error hmiddle hmore
      | ok more behind =>
        obtain ⟨hbehind, hitem⟩ := hagain.of_ok hmiddle hmore
        -- Where another item comes, `P` holds again and one turn less is left.
        cases more with
        | false => exact hbehind
        | true => exact ih (hitem rfl)

/-- A series that ends with no error has yielded something. -/
theorem harvest_ne_nil {turns : Nat} (h : (harvest item again (turns + 1) stream).error = none) :
    (harvest item again (turns + 1) stream).items ≠ [] := by
  rw [harvest] at h ⊢
  cases hrun : item stream with
  | error error behind => simp [hrun] at h
  | ok a middle =>
    rw [hrun] at h
    dsimp only at h ⊢
    cases hmore : again middle with
    | error error behind => simp [hmore] at h
    | ok more behind => cases more <;> simp

theorem Triple.series (hitem : Triple E P item fun _ => M)
    (hagain : Triple E M again fun more stream => M stream ∧ (more = true → P stream))
    (hM : ∀ stream, P stream → M stream) :
    Triple E P (series item again) fun items stream => items ≠ [] ∧ M stream := by
  intro stream hstream
  have hbehind := hitem.harvest hagain hM (stream.rest.length + 1) hstream
  rw [series_run]
  cases herror : (Parse.harvest item again (stream.rest.length + 1) stream).error with
  | none =>
    rw [herror] at hbehind
    exact ⟨harvest_ne_nil herror, hbehind⟩
  | some error =>
    rw [herror] at hbehind
    exact hbehind

/-- A series of items that may be empty. -/
theorem Triple.whenAhead (hitem : Triple E P item fun _ => M)
    (hagain : Triple E M again fun more stream => M stream ∧ (more = true → P stream))
    (hM : ∀ stream, P stream → M stream) : Triple E M (whenAhead again item) fun _ => M := by
  refine hagain.bind fun more => ?_
  cases more with
  | false => exact triple_pure fun _ h => h.1
  | true => exact ((hitem.series hagain hM).pre fun _ h => h.2 rfl).post fun _ _ h => h.2

end

/-- A rule for each of some items. -/
theorem triple_mapM {f : β → Parse α} {items : List β}
    (h : ∀ b ∈ items, Triple E P (f b) fun _ => P) :
    Triple E P (items.mapM f) fun _ => P := by
  induction items with
  | nil => exact triple_pure fun _ h => h
  | cons b rest ih =>
    rw [List.forall_mem_cons] at h
    rw [List.mapM_cons]
    exact h.1.bind fun _ => (ih h.2).bind fun _ => triple_pure fun _ h => h

end Parse

open Parse

/-- The error of tokens that are no program is one of a statement, of what comes behind it, or of
the frontmatter. -/
theorem Program.error_of_triple {E : SyntaxError → TokenStream → Prop} {P : TokenStream → Prop}
    {limit : Nat} (hhead : Triple E P Grammar.frontmatter? fun _ => P)
    (hitem : Triple E P (Grammar.statement (enterTo limit limit)) fun _ => P)
    (hagain : Triple E P (Grammar.anotherStatement .eof) fun _ => P) {tokens : List Token}
    (htokens : P (.ofTokens tokens)) {rejection : Rejection}
    (h : ofTokens limit tokens = .error rejection) : ∃ behind, E rejection.error behind := by
  rw [ofTokens] at h
  dsimp only at h
  split at h
  · next error behind hrun =>
    obtain rfl := Except.error.inj h
    exact ⟨behind, hhead.of_error htokens hrun⟩
  · next frontmatter behind hrun =>
    split at h
    · simp at h
    · next error hfound =>
      obtain rfl := Except.error.inj h
      rw [Grammar.statementsToEnd] at hfound
      split at hfound
      · simp at hfound
      · have hstatements := hitem.harvest hagain.more (fun _ h => h) (behind.rest.length + 1)
          (hhead.of_ok htokens hrun)
        rw [harvestAll] at hfound
        rw [hfound] at hstatements
        exact ⟨_, hstatements⟩

end PipelineLang
