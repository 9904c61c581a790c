import PipelineLang.Proofs.Grammar.ExpressionCompleteness
import PipelineLang.Proofs.Grammar.StatementSoundness

/-!
# What is ahead of a part

A rule looks at most at two tokens behind what it takes. All tokens that may stand behind a
statement are alike to what the statement consists of, so it does not matter which of them
does, or what comes behind it.

## Main definitions

- `Grammar.Alike` — tokens ahead that are the same up to where a statement ends
- `Goal.Precedes` — what may stand behind a nested part
- `Grammar.ReadsDerived` — nested parts that have derivations are read, whatever is ahead

## Main results

- `Shape.Series.takes`, `Shape.Many.takes` — series are read if their items are
-/

namespace PipelineLang

open TokenStream Parse Shape

namespace Parse

variable {α : Type} {stop : Token} {before taken ahead : List Token}

/-- The place of the token just passed is that of the last one of some tokens. -/
theorem lastSpan_takes_endOf (ahead : List Token) (h : taken ≠ []) :
    lastSpan.Takes stop (before ++ taken) [] ahead (endOf taken) := by
  rw [Takes, List.append_nil, List.nil_append, ← lastSpan_between_append before ahead stop h]
  rfl

theorem skip_takes (hstop : stop.kind = .eof) {kinds : List TokenKind}
    (htaken : ∀ token ∈ taken, token.kind ∈ kinds) (hahead : firstKind ahead ∉ kinds) :
    (skip kinds).Takes stop before taken ahead (!taken.isEmpty) := by
  have hall : ∀ token ∈ taken, kinds.contains token.kind := by simpa using htaken
  have hnone : ahead.takeWhile (fun token => kinds.contains token.kind) = [] ∧
      ahead.dropWhile (fun token => kinds.contains token.kind) = ahead := by
    cases ahead with
    | nil => exact ⟨rfl, rfl⟩
    | cons token rest => simp [show token.kind ∉ kinds from hahead]
  rw [Takes, skip_eq hstop, List.takeWhile_append_of_pos hall, List.dropWhile_append_of_pos hall,
    hnone.1, hnone.2, List.append_nil]
  cases taken with
  | nil => simp [hahead]
  | cons token rest => simp [htaken token (by simp)]

theorem skipNewlines_takes (hstop : stop.kind = .eof) (htaken : Newlines taken)
    (hahead : firstKind ahead ≠ .newline) : skipNewlines.Takes stop before taken ahead () :=
  (skip_takes hstop (fun token htoken => by simp [htaken token htoken])
    (by simpa using hahead)).bind_pure (takes_pure _)

theorem attempt_takes {rule : Parse (Option α)} {a : α}
    (h : rule.Takes stop before taken ahead (some a)) :
    (attempt rule).Takes stop before taken ahead (some a) := attempt_eq_some h

theorem commit_takes_none {rule : Parse (Option α)} (h : rule.Takes stop before taken ahead none) :
    (commit rule).Takes stop before [] (taken ++ ahead) none := by
  rw [Takes, List.append_nil, List.nil_append]
  exact commit_eq_none _ h

theorem attempt_takes_none {rule : Parse (Option α)} (h : rule.Takes stop before taken ahead none) :
    (attempt rule).Takes stop before [] (taken ++ ahead) none := by
  rw [Takes, List.append_nil]
  refine attempt_eq_none fun a behind hsome => ?_
  rw [List.nil_append, h] at hsome
  simp at hsome

end Parse

theorem firstKind_append_of_ne_nil {taken : List Token} (h : taken ≠ []) (ahead : List Token) :
    firstKind (taken ++ ahead) = firstKind taken := by
  cases taken with
  | nil => exact absurd rfl h
  | cons token rest => rfl

namespace Grammar

/-! ### What is ahead -/

/-- The kinds of the tokens behind statements. -/
def statementClosers : List TokenKind := [.newline, .pipe, .rBrace, .eof]

/-- Tokens ahead that are the same up to where a statement ends. -/
inductive Alike : List Token → List Token → Prop
  | ends {ahead ahead'} (h : firstKind ahead ∈ statementClosers)
    (h' : firstKind ahead' ∈ statementClosers) : Alike ahead ahead'
  | cons (token) {ahead ahead'} (h : Alike ahead ahead') : Alike (token :: ahead) (token :: ahead')

theorem alike_refl (ahead : List Token) : Alike ahead ahead := by
  induction ahead with
  | nil => exact .ends (by decide) (by decide)
  | cons token rest ih => exact .cons token ih

namespace Alike

variable {ahead ahead' : List Token}

theorem append (h : Alike ahead ahead') (tokens : List Token) :
    Alike (tokens ++ ahead) (tokens ++ ahead') := by
  induction tokens with
  | nil => exact h
  | cons token rest ih => exact .cons token ih

theorem first (h : Alike ahead ahead') : firstKind ahead = firstKind ahead' ∨
    firstKind ahead ∈ statementClosers ∧ firstKind ahead' ∈ statementClosers := by
  cases h with
  | ends h h' => exact .inr ⟨h, h'⟩
  | cons => exact .inl rfl

theorem second (h : Alike ahead ahead') (hahead : firstKind ahead ∉ statementClosers) :
    secondKind ahead = secondKind ahead' ∨
      secondKind ahead ∈ statementClosers ∧ secondKind ahead' ∈ statementClosers := by
  cases h with
  | ends h => exact absurd h hahead
  | cons _ h => exact h.first

/-- Kinds that are all or none of those behind statements do not tell one from the other. -/
theorem mem_iff (h : Alike ahead ahead') {kinds : List TokenKind}
    (hkinds : statementClosers ⊆ kinds ∨ ∀ kind ∈ statementClosers, kind ∉ kinds) :
    firstKind ahead ∈ kinds ↔ firstKind ahead' ∈ kinds := by
  obtain hsame | ⟨hends, hends'⟩ := h.first
  · rw [hsame]
  · obtain hall | hnone := hkinds
    · exact ⟨fun _ => hall hends', fun _ => hall hends⟩
    · exact ⟨fun hmem => absurd hmem (hnone _ hends), fun hmem => absurd hmem (hnone _ hends')⟩

theorem first_iff (h : Alike ahead ahead') {kind : TokenKind} (hkind : kind ∉ statementClosers) :
    firstKind ahead = kind ↔ firstKind ahead' = kind := by
  have hmem : firstKind ahead ∈ [kind] ↔ firstKind ahead' ∈ [kind] :=
    h.mem_iff (.inr fun other hother hsame => hkind (List.mem_singleton.mp hsame ▸ hother))
  simpa using hmem

theorem second_iff (h : Alike ahead ahead') (hahead : firstKind ahead ∉ statementClosers)
    {kind : TokenKind} (hkind : kind ∉ statementClosers) :
    secondKind ahead = kind ↔ secondKind ahead' = kind := by
  obtain hsame | ⟨hends, hends'⟩ := h.second hahead
  · rw [hsame]
  · exact ⟨fun hsecond => absurd (hsecond ▸ hends) hkind,
      fun hsecond => absurd (hsecond ▸ hends') hkind⟩

theorem first_second_iff (h : Alike ahead ahead') {first second : TokenKind}
    (hfirst : first ∉ statementClosers) (hsecond : second ∉ statementClosers) :
    firstKind ahead = first ∧ secondKind ahead = second ↔
      firstKind ahead' = first ∧ secondKind ahead' = second := by
  rw [← h.first_iff hfirst]
  exact and_congr_right fun hkind => h.second_iff (by rwa [hkind]) hsecond

theorem arrowAhead (h : Alike ahead ahead') : ArrowAhead ahead ↔ ArrowAhead ahead' :=
  h.first_second_iff (by decide) (by decide)

theorem callAhead (h : Alike ahead ahead') : CallAhead ahead ↔ CallAhead ahead' := by
  rw [CallAhead, CallAhead, and_or_left, and_or_left,
    h.first_second_iff (by decide) (by decide), h.first_second_iff (by decide) (by decide)]

/-- No operator starts with a token that stands behind statements. -/
theorem binaryOp?_of_mem {kind : TokenKind} (h : kind ∈ statementClosers) (second : TokenKind) :
    binaryOp? kind second = none := by
  simp only [statementClosers, List.mem_cons, List.not_mem_nil, or_false] at h
  obtain rfl | rfl | rfl | rfl := h <;> rfl

theorem operatorAhead? (h : Alike ahead ahead') (least : Nat) :
    Grammar.operatorAhead? least ahead = Grammar.operatorAhead? least ahead' := by
  have hsame : binaryOp? (firstKind ahead) (secondKind ahead) =
      binaryOp? (firstKind ahead') (secondKind ahead') := by
    by_cases hends : firstKind ahead ∈ statementClosers
    · rw [binaryOp?_of_mem hends,
        binaryOp?_of_mem ((h.mem_iff (.inl (List.Subset.refl _))).mp hends)]
    · have hfirst : firstKind ahead = firstKind ahead' :=
        h.first.resolve_right fun hmem => hends hmem.1
      rw [hfirst]
      cases hkind : firstKind ahead' with
      | kwNot =>
        have hsecond : secondKind ahead = .kwIn ↔ secondKind ahead' = .kwIn :=
          h.second_iff hends (by decide)
        simp only [binaryOp?, hsecond]
      | _ => rfl
  rw [Grammar.operatorAhead?, Grammar.operatorAhead?, hsame]

end Alike

theorem ne_of_mem_statementClosers {kind other : TokenKind} (h : kind ∈ statementClosers)
    (hother : other ∉ statementClosers) : kind ≠ other := fun hsame => hother (hsame ▸ h)

theorem mem_expressionClosers {kind : TokenKind} (h : kind ∈ statementClosers) :
    kind ∈ expressionClosers := by
  simp only [statementClosers, List.mem_cons, List.not_mem_nil, or_false] at h
  obtain rfl | rfl | rfl | rfl := h <;> decide

/-- No equals sign comes where an expression ends. -/
theorem not_signAhead_of_closer {ahead : List Token} (h : firstKind ahead ∈ expressionClosers) :
    ¬ SignAhead ahead := by
  cases ahead with
  | nil => exact not_signAhead_nil
  | cons token rest =>
    rw [firstKind_cons] at h
    have hkinds : token.kind ∉ selectorKinds ∧ token.kind ≠ .assign := by
      simp only [expressionClosers, List.mem_cons, List.not_mem_nil, or_false] at h
      obtain h | h | h | h | h | h | h | h := h <;> rw [h] <;> decide
    rw [signAhead_cons_of_notMem hkinds.1]
    exact hkinds.2

end Grammar

open Grammar

/-- What may stand behind a nested part: no question mark goes on with an expression, and the
items in brackets are closed. -/
def Goal.Precedes : {α : Type} → Goal α → TokenKind → Prop
  | _, .expression _, kind => kind ≠ .question
  | _, .listItems, kind => kind = .rBracket
  | _, .recordItems, kind => kind = .rBrace
  | _, .arms _, kind => kind = .rBrace
  | _, .pipeline _, kind => kind = .rBrace
  | _, _, _ => True

namespace Grammar

/-- Nested parts that have derivations are read, whatever stands before them and as long as
what is ahead is alike. -/
def ReadsDerived (enter : Enter) (nested : Nested) : Prop :=
  ∀ ⦃stop : Token⦄, stop.kind = .eof → ∀ ⦃α : Type⦄ ⦃goal : Goal α⦄
    ⦃before taken ahead : List Token⦄ ⦃a : α⦄, nested α goal before taken ahead a →
    ∀ (before' : List Token) ⦃ahead' : List Token⦄, Alike ahead ahead' →
    goal.Precedes (firstKind ahead') → (enter α goal).Takes stop before' taken ahead' a

end Grammar

namespace Shape

variable {α : Type} {item : Shape α} {before taken ahead ahead' : List Token} {items : List α}

/-- What all items start with, a series starts with. -/
theorem Series.start {again : Shape Bool} (Start : List Token → Prop)
    (hstart : ∀ {before taken ahead a}, item before taken ahead a →
      ∀ ahead', Start (taken ++ ahead'))
    (h : Series item again before taken ahead items) (ahead' : List Token) :
    Start (taken ++ ahead') := by
  cases h with
  | last hitem _ =>
    rw [List.append_assoc]
    exact hstart hitem _
  | more hitem _ _ =>
    rw [List.append_assoc, List.append_assoc]
    exact hstart hitem _

/-- A series is read if its items are, and what stands between them. -/
theorem Series.takes {again : Shape Bool} {rule : Parse α} {more : Parse Bool} {stop : Token}
    (Follow Start End : List Token → Prop)
    (hitem : ∀ {before taken ahead a}, item before taken ahead a →
      ∀ (before' : List Token) {ahead'}, Alike ahead ahead' → Follow ahead' →
        rule.TakesSome stop before' taken ahead' a)
    (hstart : ∀ {before taken ahead a}, item before taken ahead a →
      ∀ ahead', Start (taken ++ ahead'))
    (hmore : ∀ {before gap ahead}, again before gap ahead true →
      ∀ (before' : List Token) {ahead'}, Start ahead' →
        more.Takes stop before' gap ahead' true ∧ Follow (gap ++ ahead'))
    (hlast : ∀ {before gap ahead}, again before gap ahead false →
      ∀ (before' : List Token) {ahead'}, Alike ahead ahead' → End ahead' →
        more.Takes stop before' gap ahead' false ∧ Follow (gap ++ ahead'))
    (h : Series item again before taken ahead items) (before' : List Token)
    (hsame : Alike ahead ahead') (hend : End ahead') :
    Series (rule.TakesSome stop) (more.Takes stop) before' taken ahead' items := by
  induction h generalizing before' with
  | last h hagain =>
    obtain ⟨hgap, hfollow⟩ := hlast hagain (before' ++ _) hsame hend
    exact .last (hitem h before' (hsame.append _) hfollow) hgap
  | more h hagain hothers ih =>
    obtain ⟨hgap, hfollow⟩ := hmore hagain (before' ++ _) (hothers.start Start hstart ahead')
    exact .more (hitem h before' ((hsame.append _).append _) hfollow) hgap (ih _ hsame)

/-- Items one after another are read if each of them is. -/
theorem Many.takes {read : Shape α} (Follow : List Token → Prop)
    (hitem : ∀ {before taken ahead a}, item before taken ahead a →
      ∀ (before' : List Token) {ahead'}, Alike ahead ahead' → Follow ahead' →
        read before' taken ahead' a ∧ Follow (taken ++ ahead'))
    (h : Many item before taken ahead items) (before' : List Token) (hsame : Alike ahead ahead')
    (hend : Follow ahead') :
    Many read before' taken ahead' items ∧ Follow (taken ++ ahead') := by
  induction h generalizing before' with
  | nil => exact ⟨.nil, hend⟩
  | cons h _ ih =>
    obtain ⟨hothers, hfollow⟩ := ih (before' ++ _) hsame
    obtain ⟨hread, hfollow⟩ := hitem h before' (hsame.append _) hfollow
    exact ⟨.cons hread hothers, by rwa [List.append_assoc]⟩

end Shape

end PipelineLang
