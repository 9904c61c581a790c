import PipelineLang.Proofs.Grammar.Rule

/-!
# What series take

A series applies a rule as often as it can. Its number of turns is bounded by the
number of tokens ahead; since each item takes a token, the bound is never met.

## Main definitions

- `Shape` — a relation between the tokens that a rule takes, those around them, and
  what it yields
- `Shape.Series` — items, and behind each of them whether there is another one
- `Shape.Many` — items one after another

## Main results

- `Parse.series_yields`, `Parse.whenAhead_yields` — a series takes its items one after
  another
- `Parse.harvest_takes` — so does a series that ends with an error
-/

namespace PipelineLang

/-- The tokens before, those taken, those ahead, and what has been taken. -/
abbrev Shape (α : Type) := (before taken ahead : List Token) → α → Prop

namespace Shape

variable {α : Type}

/-- Items of a shape, with what decides behind each of them whether there is another
one. -/
inductive Series (item : Shape α) (again : Shape Bool) : Shape (List α)
  | last {before taken gap ahead a} (hitem : item before taken (gap ++ ahead) a)
    (hagain : again (before ++ taken) gap ahead false) :
    Series item again before (taken ++ gap) ahead [a]
  | more {before taken gap others ahead a as}
    (hitem : item before taken (gap ++ (others ++ ahead)) a)
    (hagain : again (before ++ taken) gap (others ++ ahead) true)
    (hothers : Series item again (before ++ taken ++ gap) others ahead as) :
    Series item again before (taken ++ gap ++ others) ahead (a :: as)

/-- Items of a shape, one after another. -/
inductive Many (item : Shape α) : Shape (List α)
  | nil {before ahead} : Many item before [] ahead []
  | cons {before taken others ahead a as} (hitem : item before taken (others ++ ahead) a)
    (hothers : Many item (before ++ taken) others ahead as) :
    Many item before (taken ++ others) ahead (a :: as)

/-- One more item behind others. -/
theorem Many.concat {item : Shape α} {before taken others ahead : List Token} {items : List α}
    {a : α} (h : Many item before taken (others ++ ahead) items)
    (hitem : item (before ++ taken) others ahead a) :
    Many item before (taken ++ others) ahead (items ++ [a]) := by
  generalize hbehind : others ++ ahead = behind at h
  induction h with
  | nil =>
    subst hbehind
    rw [List.append_nil] at hitem
    rw [List.nil_append, ← List.append_nil others]
    exact .cons (by simpa using hitem) .nil
  | cons hfirst _ ih =>
    subst hbehind
    rw [List.append_assoc]
    exact .cons (by simpa using hfirst) (ih (by simpa using hitem) rfl)

/-- The first items of a series, behind each of which there is another one. -/
inductive Partial (item : Shape α) (again : Shape Bool) : Shape (List α)
  | nil {before ahead} : Partial item again before [] ahead []
  | last {before taken ahead a} (hitem : item before taken ahead a) :
    Partial item again before taken ahead [a]
  | more {before taken gap others ahead a as}
    (hitem : item before taken (gap ++ (others ++ ahead)) a)
    (hagain : again (before ++ taken) gap (others ++ ahead) true)
    (hothers : Partial item again (before ++ taken ++ gap) others ahead as) :
    Partial item again before (taken ++ gap ++ others) ahead (a :: as)

end Shape

open TokenStream Shape

namespace Parse

variable {α : Type}

/-- Where `rule` succeeds on tokens that `start` holds of, it takes some of them. -/
def YieldsAt (start : List Token → Prop) (rule : Parse α) (R : Shape α) : Prop :=
  ∀ ⦃before ahead : List Token⦄ ⦃stop : Token⦄ ⦃a : α⦄ ⦃behind : TokenStream⦄,
    stop.kind = .eof → start ahead → rule.run (between before ahead stop) = .ok a behind →
    ∃ taken rest, ahead = taken ++ rest ∧ behind = between (before ++ taken) rest stop ∧
      R before taken rest a

theorem Yields.at {rule : Parse α} {R : Shape α} (h : rule.Yields R)
    (start : List Token → Prop) : YieldsAt start rule R :=
  fun _ _ _ _ _ hstop _ hrun => h hstop hrun

section Harvest

variable {item : Parse α} {again : Parse Bool} {start : List Token → Prop} {I : Shape α}
  {A : Shape Bool}

/-- With more turns than tokens ahead, the items of a series are taken one after
another until there is none. -/
theorem harvest_yields (hitem : YieldsAt start item I) (hagain : again.Yields A)
    (hstart : ∀ before taken rest, A before taken rest true → start rest)
    (hprogress : ∀ before taken rest a, I before taken rest a → taken ≠ [])
    (turns : Nat) (before : List Token) {ahead : List Token} {stop : Token}
    (hstop : stop.kind = .eof) (hturns : ahead.length < turns) (hahead : start ahead)
    (hok : (harvest item again turns (between before ahead stop)).error = none) :
    ∃ taken rest, ahead = taken ++ rest ∧
      (harvest item again turns (between before ahead stop)).behind =
        between (before ++ taken) rest stop ∧
      Series I A before taken rest
        (harvest item again turns (between before ahead stop)).items := by
  induction turns generalizing before ahead with
  | zero => omega
  | succ turns ih =>
    rw [harvest] at hok ⊢
    cases hrun : item (between before ahead stop) with
    | error e s => simp [hrun] at hok
    | ok a middle =>
      obtain ⟨taken, rest, rfl, rfl, hI⟩ := hitem hstop hahead hrun
      simp only [hrun] at hok ⊢
      cases hmore : again (between (before ++ taken) rest stop) with
      | error e s => simp [hmore] at hok
      | ok found middle =>
        obtain ⟨gap, rest, rfl, rfl, hA⟩ := hagain hstop hmore
        simp only [hmore] at hok ⊢
        cases found with
        | false => exact ⟨taken ++ gap, rest, by simp, by simp, .last hI hA⟩
        | true =>
          have hshort : rest.length < turns := by
            have := List.length_pos_iff.mpr (hprogress _ _ _ _ hI)
            simp only [List.length_append] at hturns
            omega
          obtain ⟨others, rest, rfl, hbehind, hothers⟩ :=
            ih _ hshort (hstart _ _ _ hA) hok
          exact ⟨taken ++ gap ++ others, rest, by simp, by simpa using hbehind,
            .more hI hA hothers⟩

/-- The items that a series has taken before an error stand one after another at the
head of the tokens. -/
theorem harvest_takes (hitem : YieldsAt start item I) (hagain : again.Yields A)
    (hstart : ∀ before taken rest, A before taken rest true → start rest)
    (turns : Nat) (before ahead : List Token) {stop : Token} (hstop : stop.kind = .eof)
    (hahead : start ahead) :
    ∃ taken rest, ahead = taken ++ rest ∧ Partial I A before taken rest
      (harvest item again turns (between before ahead stop)).items := by
  induction turns generalizing before ahead with
  | zero => exact ⟨[], ahead, rfl, .nil⟩
  | succ turns ih =>
    rw [harvest]
    cases hrun : item (between before ahead stop) with
    | error e s => exact ⟨[], ahead, rfl, .nil⟩
    | ok a middle =>
      obtain ⟨taken, rest, rfl, rfl, hI⟩ := hitem hstop hahead hrun
      cases hmore : again (between (before ++ taken) rest stop) with
      | error e s => exact ⟨taken, rest, rfl, by simpa [hmore] using .last hI⟩
      | ok found middle =>
        obtain ⟨gap, rest, rfl, rfl, hA⟩ := hagain hstop hmore
        cases found with
        | false => exact ⟨taken, gap ++ rest, rfl, by simpa [hmore] using .last hI⟩
        | true =>
          obtain ⟨others, rest, rfl, hothers⟩ := ih _ _ (hstart _ _ _ hA)
          refine ⟨taken ++ gap ++ others, rest, by simp, ?_⟩
          simp only [hmore]
          exact .more hI hA hothers

/-- With more turns than tokens ahead, it does not matter how many there are. -/
theorem harvest_turns (hitem : item.Yields I) (hagain : again.Yields A)
    (hprogress : ∀ before taken rest a, I before taken rest a → taken ≠ []) {stop : Token}
    (hstop : stop.kind = .eof) {turns turns' : Nat} {before ahead : List Token}
    (hturns : ahead.length < turns) (hturns' : ahead.length < turns') :
    harvest item again turns (between before ahead stop) =
      harvest item again turns' (between before ahead stop) := by
  induction turns generalizing turns' before ahead with
  | zero => omega
  | succ turns ih =>
    obtain ⟨turns', rfl⟩ := Nat.exists_eq_add_one_of_ne_zero (Nat.ne_zero_of_lt hturns')
    rw [harvest, harvest]
    cases hrun : item (between before ahead stop) with
    | error error behind => rfl
    | ok a middle =>
      obtain ⟨taken, rest, rfl, rfl, hI⟩ := hitem hstop hrun
      dsimp only
      cases hmore : again (between (before ++ taken) rest stop) with
      | error error behind => rfl
      | ok found behind =>
        obtain ⟨gap, rest, rfl, rfl, -⟩ := hagain hstop hmore
        cases found with
        | false => rfl
        | true =>
          have := List.length_pos_iff.mpr (hprogress _ _ _ _ hI)
          simp only [List.length_append] at hturns hturns'
          dsimp only
          rw [ih (by omega : rest.length < turns) (by omega : rest.length < turns')]

end Harvest

section Series

variable {item : Parse α} {again : Parse Bool} {start : List Token → Prop} {I : Shape α}
  {A : Shape Bool}

/-- A series takes its items one after another, and does not stop for want of turns. -/
theorem series_yieldsAt (hitem : YieldsAt start item I) (hagain : again.Yields A)
    (hstart : ∀ before taken rest, A before taken rest true → start rest)
    (hprogress : ∀ before taken rest a, I before taken rest a → taken ≠ []) :
    YieldsAt start (series item again) (Series I A) := by
  intro before ahead stop as behind hstop hahead h
  have hharvest := harvest_yields hitem hagain hstart hprogress (ahead.length + 1) before hstop
    (Nat.lt_succ_self _) hahead
  simp only [series, harvestAll, EStateM.run, rest_between] at h
  split at h
  · next herror =>
    obtain ⟨rfl, rfl⟩ := pure_ok h
    exact hharvest herror
  · simp at h

theorem series_yields (hitem : item.Yields I) (hagain : again.Yields A)
    (hprogress : ∀ before taken rest a, I before taken rest a → taken ≠ []) :
    (series item again).Yields (Series I A) := by
  intro before ahead stop as behind hstop h
  exact series_yieldsAt (hitem.at fun _ => True) hagain (fun _ _ _ _ => trivial) hprogress
    hstop trivial h

/-- Items that come as long as `p` holds of the tokens ahead. -/
theorem whenAhead_yields {p : List Token → Bool}
    (hp : ∀ {before ahead : List Token} {stop : Token}, stop.kind = .eof →
      again.run (between before ahead stop) = .ok (p ahead) (between before ahead stop))
    (hitem : YieldsAt (fun ahead => p ahead = true) item I)
    (hprogress : ∀ before taken rest a, I before taken rest a → taken ≠ []) :
    (whenAhead again item).Yields fun before taken rest as =>
      Many I before taken rest as ∧ p rest = false := by
  have hagain : again.Yields fun _ taken rest found => taken = [] ∧ found = p rest := by
    intro before ahead stop found behind hstop h
    rw [hp hstop] at h
    obtain ⟨rfl, rfl⟩ := pure_ok h
    exact ⟨[], ahead, rfl, by simp, rfl, rfl⟩
  have hmany : ∀ {before taken rest as},
      Series I (fun _ taken rest found => taken = [] ∧ found = p rest) before taken rest as →
      Many I before taken rest as ∧ p rest = false := by
    intro before taken rest as h
    induction h with
    | last hitem hagain =>
      obtain ⟨rfl, hnone⟩ := hagain
      exact ⟨.cons hitem .nil, hnone.symm⟩
    | more hitem hagain _ ih =>
      obtain ⟨rfl, -⟩ := hagain
      rw [List.append_nil] at ih ⊢
      exact ⟨.cons hitem ih.1, ih.2⟩
  intro before ahead stop as behind hstop h
  rw [whenAhead, bind_eq (hp hstop)] at h
  cases hahead : p ahead with
  | false =>
    rw [hahead, if_neg (by simp)] at h
    obtain ⟨rfl, rfl⟩ := pure_ok h
    exact ⟨[], ahead, rfl, by simp, .nil, hahead⟩
  | true =>
    rw [hahead, if_pos rfl] at h
    obtain ⟨taken, rest, rfl, hbehind, hseries⟩ :=
      series_yieldsAt hitem hagain (fun _ _ _ h => h.2.symm) hprogress hstop hahead h
    exact ⟨taken, rest, rfl, hbehind, hmany hseries⟩

/-- A series that has not failed has items. -/
theorem harvest_items_ne_nil (turns : Nat) (stream : TokenStream)
    (h : (harvest item again (turns + 1) stream).error = none) :
    (harvest item again (turns + 1) stream).items ≠ [] := by
  rw [harvest] at h ⊢
  cases hrun : item stream with
  | error e s => simp [hrun] at h
  | ok a middle =>
    cases hmore : again middle with
    | error e s => simp [hrun, hmore] at h
    | ok found middle => cases found <;> simp [hmore]

/-- A series that ends behind its first item. -/
theorem series_eq_of_last {a : α} {stream middle behind : TokenStream}
    (hitem : item.run stream = .ok a middle) (hagain : again.run middle = .ok false behind) :
    (series item again).run stream = .ok [a] behind := by
  simp only [EStateM.run] at hitem hagain
  simp only [series, harvestAll, harvest, EStateM.run, hitem, hagain]

/-- A series that fails at its first item. -/
theorem series_eq_error (again : Parse Bool) {stream behind : TokenStream} {error : SyntaxError}
    (hitem : item.run stream = .error error behind) :
    (series item again).run stream = .error error behind := by
  rw [EStateM.run] at hitem
  simp only [series, harvestAll, harvest, EStateM.run, hitem]

/-- Behind the only item of a series there is no other one. -/
theorem series_eq_singleton {a : α} {stream behind : TokenStream} (hrest : stream.rest ≠ [])
    (h : (series item again).run stream = .ok [a] behind) :
    ∃ middle, item.run stream = .ok a middle ∧ again.run middle = .ok false behind := by
  obtain ⟨turns, hturns⟩ :=
    Nat.exists_eq_add_one_of_ne_zero (List.length_pos_iff.mpr hrest).ne'
  simp only [series, harvestAll, EStateM.run, hturns] at h ⊢
  split at h
  · next herror =>
    obtain ⟨hitems, rfl⟩ := pure_ok h
    rw [harvest] at herror hitems ⊢
    cases hrun : item stream with
    | error e s => simp [hrun] at herror
    | ok b middle =>
      simp only [hrun] at herror hitems ⊢
      cases hmore : again middle with
      | error e s => simp [hmore] at herror
      | ok found behind =>
        simp only [hmore] at herror hitems ⊢
        cases found with
        | false =>
          obtain rfl := (List.cons.inj hitems).1
          exact ⟨middle, rfl, hmore⟩
        | true =>
          exact absurd (List.cons.inj hitems).2.symm (harvest_items_ne_nil turns behind herror)
  · simp at h

end Series

end Parse

end PipelineLang
