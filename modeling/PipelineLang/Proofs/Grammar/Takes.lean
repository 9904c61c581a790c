import PipelineLang.Proofs.Grammar.FirstTokens

/-!
# Rules that are known to take tokens

Where it is known what a rule takes, rules are put together from left to right.

## Main definitions

- `Parse.Takes` — a rule succeeds and takes some tokens

## Main results

- `Parse.Takes.bind` — one rule after another
- `Parse.series_takes`, `Parse.whenAhead_takes` — series, which do not run out of turns
-/

namespace PipelineLang

open TokenStream Shape

namespace Parse

variable {α β : Type} {stop : Token} {before taken others ahead : List Token}

/-- The rule succeeds behind the tokens `before`, takes the tokens `taken` and leaves the
tokens `ahead`. -/
def Takes (rule : Parse α) (stop : Token) : Shape α := fun before taken ahead a =>
  rule.run (between before (taken ++ ahead) stop) = .ok a (between (before ++ taken) ahead stop)

/-- The rule takes some tokens, and at least one. -/
def TakesSome (rule : Parse α) (stop : Token) : Shape α := fun before taken ahead a =>
  rule.Takes stop before taken ahead a ∧ taken ≠ []

theorem Takes.bind {rule : Parse α} {next : α → Parse β} {a : α} {b : β}
    (h : rule.Takes stop before taken (others ++ ahead) a)
    (hnext : (next a).Takes stop (before ++ taken) others ahead b) :
    (rule >>= next).Takes stop before (taken ++ others) ahead b := by
  rw [Takes, List.append_assoc, bind_eq h, ← List.append_assoc]
  exact hnext

/-- A rule that takes one token, before another one. -/
theorem Takes.bind_cons {rule : Parse α} {next : α → Parse β} {token : Token} {a : α} {b : β}
    (h : rule.Takes stop before [token] (others ++ ahead) a)
    (hnext : (next a).Takes stop (before ++ [token]) others ahead b) :
    (rule >>= next).Takes stop before (token :: others) ahead b := h.bind hnext

/-- A rule that takes nothing, before another one. -/
theorem Takes.bind_nil {rule : Parse α} {next : α → Parse β} {a : α} {b : β}
    (h : rule.Takes stop before [] (taken ++ ahead) a)
    (hnext : (next a).Takes stop before taken ahead b) :
    (rule >>= next).Takes stop before taken ahead b := by
  have hboth := h.bind (by rw [List.append_nil]; exact hnext)
  rwa [List.nil_append] at hboth

/-- Two rules that take nothing. -/
theorem Takes.bind_none {rule : Parse α} {next : α → Parse β} {a : α} {b : β}
    (h : rule.Takes stop before [] ahead a) (hnext : (next a).Takes stop before [] ahead b) :
    (rule >>= next).Takes stop before [] ahead b := by
  refine Takes.bind_nil ?_ hnext
  rwa [List.nil_append]

theorem takes_pure (a : α) : (pure a : Parse α).Takes stop before [] ahead a := by
  rw [Takes, List.append_nil]
  rfl

/-- A rule whose result is passed on. -/
theorem Takes.bind_pure {rule : Parse α} {next : α → Parse β} {a : α} {b : β}
    (h : rule.Takes stop before taken ahead a)
    (hnext : (next a).Takes stop (before ++ taken) [] ahead b) :
    (rule >>= next).Takes stop before taken ahead b := by
  rw [← List.append_nil taken]
  exact Takes.bind h hnext

theorem map_takes {rule : Parse α} {a : α} (h : rule.Takes stop before taken ahead a) (f : α → β) :
    (f <$> rule).Takes stop before taken ahead (f a) := by
  rw [← bind_pure_comp]
  exact h.bind_pure (takes_pure _)

theorem take_takes (token : Token) : take.Takes stop before [token] ahead token := take_eq

theorem peek_takes (token : Token) :
    peek.Takes stop before [] (token :: ahead) token := by
  rw [Takes, List.append_nil]
  rfl

theorem lastSpan_takes (stop : Token) (before ahead : List Token) :
    ∃ span, lastSpan.Takes stop before [] ahead span := by
  refine ⟨(between before ahead stop).lastSpan, ?_⟩
  rw [Takes, List.append_nil]
  rfl

theorem eats_takes (hstop : stop.kind = .eof) {kind : TokenKind} {token : Token}
    (h : token.kind = kind) : (eats kind).Takes stop before [token] ahead true :=
  eats_eq_true hstop h

theorem eats_takes_nil (hstop : stop.kind = .eof) {kind : TokenKind}
    (h : firstKind ahead ≠ kind) : (eats kind).Takes stop before [] ahead false := by
  rw [Takes, List.append_nil]
  exact eats_eq_false hstop h

theorem expect_takes (hstop : stop.kind = .eof) {kind : TokenKind} {token : Token}
    (h : token.kind = kind) : (expect kind).Takes stop before [token] ahead token :=
  expect_eq hstop h

theorem expectClosing_takes (hstop : stop.kind = .eof) {kind : TokenKind} (hkind : kind ≠ .eof)
    (opener : Token) {token : Token} (h : token.kind = kind) :
    (expectClosing kind opener).Takes stop before [token] ahead token :=
  expectClosing_eq hstop hkind h

theorem isAt_takes (hstop : stop.kind = .eof) (kind : TokenKind) :
    (isAt kind).Takes stop before [] ahead (firstKind ahead == kind) := by
  rw [Takes, List.append_nil]
  exact isAt_eq hstop kind

theorem peekKind_takes (hstop : stop.kind = .eof) :
    peekKind.Takes stop before [] ahead (firstKind ahead) := by
  rw [Takes, List.append_nil]
  exact peekKind_eq hstop

theorem skipNewlines_takes_nil (hstop : stop.kind = .eof) (h : firstKind ahead ≠ .newline) :
    skipNewlines.Takes stop before [] ahead () := by
  rw [Takes, List.append_nil]
  exact skipNewlines_eq hstop h

theorem eat_takes (hstop : stop.kind = .eof) {kind : TokenKind} {token : Token}
    (h : token.kind = kind) : (eat kind).Takes stop before [token] ahead (some token) :=
  eat_eq_some hstop h

theorem eat_takes_nil (hstop : stop.kind = .eof) {kind : TokenKind}
    (h : firstKind ahead ≠ kind) : (eat kind).Takes stop before [] ahead none := by
  rw [Takes, List.append_nil]
  exact eat_eq_none hstop h

theorem commit_takes {rule : Parse (Option α)} {a : α}
    (h : rule.Takes stop before taken ahead (some a)) :
    (commit rule).Takes stop before taken ahead (some a) := commit_eq_some h

/-- A rule that is applied to another stream takes nothing of this one. -/
theorem within_takes {rule : Parse α} {inner : TokenStream} {a : α}
    (h : rule.Takes inner.stop [] inner.rest [] a) (hlast : inner.last = none) :
    (within inner rule).Takes stop before [] ahead a := by
  obtain ⟨tokens, last, stop'⟩ := inner
  obtain rfl := hlast
  rw [Takes, List.append_nil] at h ⊢
  simp only [EStateM.run] at h ⊢
  rw [within, show (⟨tokens, none, stop'⟩ : TokenStream) = between [] tokens stop' from rfl, h]
  rfl

/-! ### Series -/

variable {item : Parse α} {again : Parse Bool} {items : List α}

theorem length_le_of_series {I : Shape α} {A : Shape Bool}
    (hprogress : ∀ {before taken ahead a}, I before taken ahead a → taken ≠ [])
    (h : Series I A before taken ahead items) : items.length ≤ taken.length := by
  induction h with
  | last hitem _ =>
    have := List.length_pos_iff.mpr (hprogress hitem)
    simp only [List.length_append, List.length_singleton]
    omega
  | more hitem _ _ ih =>
    have := List.length_pos_iff.mpr (hprogress hitem)
    simp only [List.length_append, List.length_cons]
    omega

theorem harvest_takes_all
    (h : Series (item.Takes stop) (again.Takes stop) before taken ahead items) (turns : Nat)
    (hturns : items.length ≤ turns) :
    harvest item again turns (between before (taken ++ ahead) stop) =
      ⟨items, none, between (before ++ taken) ahead stop⟩ := by
  induction h generalizing turns with
  | @last _ taken gap ahead a hitem hagain =>
    obtain ⟨turns, rfl⟩ := Nat.exists_eq_add_one_of_ne_zero (Nat.one_le_iff_ne_zero.mp hturns)
    simp only [Takes, EStateM.run] at hitem hagain
    simp only [harvest, List.append_assoc, hitem, hagain]
  | @more before taken gap others ahead a as hitem hagain _ ih =>
    rw [List.length_cons] at hturns
    obtain ⟨turns, rfl⟩ := Nat.exists_eq_add_one_of_ne_zero (n := turns) (by omega)
    simp only [Takes, EStateM.run] at hitem hagain
    have hothers := ih turns (by omega)
    simp only [List.append_assoc] at hothers hitem hagain
    simp only [harvest, List.append_assoc, hitem, hagain, hothers]

theorem takes_of_takesSome {A : Shape Bool}
    (h : Series (item.TakesSome stop) A before taken ahead items) :
    Series (item.Takes stop) A before taken ahead items := by
  induction h with
  | last hitem hagain => exact .last hitem.1 hagain
  | more hitem hagain _ ih => exact .more hitem.1 hagain ih

/-- A series takes its items, if each of them takes a token. -/
theorem series_takes
    (h : Series (item.TakesSome stop) (again.Takes stop) before taken ahead items) :
    (series item again).Takes stop before taken ahead items := by
  have hlength := length_le_of_series (fun h => h.2) h
  simp only [Takes, series, harvestAll, EStateM.run, rest_between]
  rw [harvest_takes_all (takes_of_takesSome h) _ (by simp only [List.length_append]; omega)]

/-- Items that come as long as `p` holds of the tokens ahead. -/
theorem whenAhead_takes {p : List Token → Bool}
    (hp : ∀ before ahead : List Token, again.Takes stop before [] ahead (p ahead))
    (h : Many (fun before taken ahead a => item.TakesSome stop before taken ahead a ∧
      p (taken ++ ahead) = true) before taken ahead items) (hend : p ahead = false) :
    (whenAhead again item).Takes stop before taken ahead items := by
  have hseries : items = [] ∧ taken = [] ∨ p (taken ++ ahead) = true ∧
      Series (item.TakesSome stop) (again.Takes stop) before taken ahead items := by
    induction h with
    | nil => exact .inl ⟨rfl, rfl⟩
    | @cons before taken others ahead a as hitem _ ih =>
      obtain ⟨hrun, hahead⟩ := hitem
      refine .inr ⟨by simpa using hahead, ?_⟩
      obtain ⟨rfl, rfl⟩ | ⟨hmore, hothers⟩ := ih hend
      · have hlast := hp (before ++ taken) ahead
        rw [hend] at hlast
        exact .last hrun hlast
      · have hagain := hp (before ++ taken) (others ++ ahead)
        rw [hmore] at hagain
        rw [← List.append_nil (before ++ taken)] at hothers
        have hboth := Series.more hrun hagain hothers
        rwa [List.append_nil] at hboth
  obtain ⟨rfl, rfl⟩ | ⟨hahead, hseries⟩ := hseries
  · have hnone := hp before ahead
    rw [hend] at hnone
    exact hnone.bind_nil (by rw [if_neg (by simp)]; exact takes_pure _)
  · have hsome := hp before (taken ++ ahead)
    rw [hahead] at hsome
    exact hsome.bind_nil (by rw [if_pos rfl]; exact series_takes hseries)

end Parse

end PipelineLang
