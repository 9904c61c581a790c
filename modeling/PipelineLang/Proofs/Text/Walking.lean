import PipelineLang.Text.Walk

/-!
# How a walk goes

A walk counts down the characters that it passes without a stop. Here it goes from stop to
stop.

## Main definitions

- `Walks` — the stops of a walk, and its result
- `Stride.Alike` — the same is decided at the stops of two walks
- `StopAlike` — two ways to stop that decide alike

## Main results

- `walks_walk` — a walk goes from stop to stop
- `Walks.walk_eq` — where such stops lead, the walk leads
- `walk_alike` — two walks that decide alike come to the same result
- `StopAlike.walk` — a walk that ends well within a text does not notice what is behind it
-/

namespace PipelineLang

variable {σ ρ : Type}

/-- A walk along `text` that stops at a position with a state ends with a result. -/
inductive Walks (stop : Nat → σ → List Char → Stride σ ρ) (finish : Nat → σ → ρ)
    (text : List Char) : (position : Nat) → σ → ρ → Prop
  /-- The text has ended. -/
  | finish {position state} (hend : text.length ≤ position) :
    Walks stop finish text position state (finish text.length state)
  /-- The walk ends at the stop. -/
  | done {position state result} (hlt : position < text.length)
    (hstop : stop position state (text.drop position) = .done result) :
    Walks stop finish text position state result
  /-- The walk goes on to another stop. -/
  | go {position state extra state' result} (hlt : position < text.length)
    (hstop : stop position state (text.drop position) = .go extra state')
    (hrest : Walks stop finish text (position + 1 + extra) state' result) :
    Walks stop finish text position state result

variable {stop : Nat → σ → List Char → Stride σ ρ} {finish : Nat → σ → ρ}

theorem walks_walk_drop {text rest : List Char} {position : Nat} (skip : Nat) (state : σ)
    (hle : position ≤ text.length) (hrest : text.drop position = rest) :
    Walks stop finish text (position + skip) state (walk stop finish skip position state rest) := by
  induction rest generalizing skip position state with
  | nil =>
    obtain rfl : position = text.length := Nat.le_antisymm hle (List.drop_eq_nil_iff.mp hrest)
    rw [walk]
    exact .finish (Nat.le_add_right _ _)
  | cons c rest ih =>
    have hlt : position < text.length := by
      refine Nat.lt_of_not_le fun hge => ?_
      rw [List.drop_of_length_le hge] at hrest
      simp at hrest
    have hnext : text.drop (position + 1) = rest := by
      rw [← List.drop_drop, hrest, List.drop_succ_cons, List.drop_zero]
    cases skip with
    | succ skip =>
      have hwalk := ih skip state hlt hnext
      rwa [Nat.succ_add_eq_add_succ] at hwalk
    | zero =>
      rw [walk, Nat.add_zero]
      cases hstride : stop position state (c :: rest) with
      | done result => exact .done hlt (by rw [hrest, hstride])
      | go extra state' => exact .go hlt (by rw [hrest, hstride]) (ih extra state' hlt hnext)

/-- A walk goes from stop to stop. -/
theorem walks_walk {text : List Char} {position : Nat} (state : σ) (hle : position ≤ text.length) :
    Walks stop finish text position state
      (walk stop finish 0 position state (text.drop position)) := by
  simpa using walks_walk_drop 0 state hle rfl

/-- The stops of a walk decide where it ends. -/
theorem Walks.unique {text : List Char} {position : Nat} {state : σ} {result result' : ρ}
    (h : Walks stop finish text position state result)
    (h' : Walks stop finish text position state result') : result = result' := by
  induction h with
  | finish hend =>
    cases h' with
    | finish => rfl
    | done hlt | go hlt => omega
  | done hlt hstop =>
    cases h' with
    | finish => omega
    | done _ hstop' =>
      rw [hstop] at hstop'
      exact Stride.done.inj hstop'
    | go _ hstop' =>
      rw [hstop] at hstop'
      simp at hstop'
  | go hlt hstop _ ih =>
    cases h' with
    | finish => omega
    | done _ hstop' =>
      rw [hstop] at hstop'
      simp at hstop'
    | go _ hstop' hrest' =>
      rw [hstop] at hstop'
      obtain ⟨rfl, rfl⟩ := Stride.go.inj hstop'
      exact ih hrest'

/-- Where such stops lead, the walk leads. -/
theorem Walks.walk_eq {text : List Char} {position : Nat} {state : σ} {result : ρ}
    (h : Walks stop finish text position state result) (hle : position ≤ text.length) :
    walk stop finish 0 position state (text.drop position) = result :=
  (walks_walk state hle).unique h

/-- What holds of the results of the stops from `start` on, and of the result at the end of the
text, holds of the result of a walk. -/
theorem Walks.induction_from {P : ρ → Prop} {text : List Char} {start position : Nat} {state : σ}
    {result : ρ} (h : Walks stop finish text position state result) (hle : start ≤ position)
    (hfinish : ∀ state, P (finish text.length state))
    (hstop : ∀ position state result, start ≤ position → position < text.length →
      stop position state (text.drop position) = .done result → P result) : P result := by
  induction h with
  | finish => exact hfinish _
  | done hlt hdone => exact hstop _ _ _ hle hlt hdone
  | go _ _ _ ih => exact ih (by omega)

/-- The same for a walk that starts within a text. -/
theorem walk_induction_from {P : ρ → Prop} {text : List Char} {start : Nat}
    (hstart : start ≤ text.length) (hfinish : ∀ state, P (finish text.length state))
    (hstop : ∀ position state result, start ≤ position → position < text.length →
      stop position state (text.drop position) = .done result → P result) (state : σ) :
    P (walk stop finish 0 start state (text.drop start)) :=
  (walks_walk state hstart).induction_from (Nat.le_refl start) hfinish hstop

/-- A walk that does not end with the text ends at one of its stops. -/
theorem Walks.exists_stop {text : List Char} {position : Nat} {state : σ} {result : ρ}
    (h : Walks stop finish text position state result)
    (hfinish : ∀ position state, finish position state ≠ result) :
    ∃ last state', position ≤ last ∧ last < text.length ∧
      stop last state' (text.drop last) = .done result := by
  induction h with
  | finish => exact absurd rfl (hfinish _ _)
  | done hlt hstop => exact ⟨_, _, Nat.le_refl _, hlt, hstop⟩
  | go hlt _ _ ih =>
    obtain ⟨last, state', hle, hlast, hstop⟩ := ih hfinish
    exact ⟨last, state', by omega, hlast, hstop⟩

theorem exists_stop_of_walk {text : List Char} {position : Nat} {state : σ} {result : ρ}
    (h : walk stop finish 0 position state (text.drop position) = result)
    (hfinish : ∀ position state, finish position state ≠ result) :
    ∃ last state', position ≤ last ∧ last < text.length ∧
      stop last state' (text.drop last) = .done result := by
  by_cases hposition : position ≤ text.length
  · exact (h ▸ walks_walk state hposition).exists_stop hfinish
  · rw [List.drop_of_length_le (by omega), PipelineLang.walk] at h
    exact absurd h (hfinish _ _)

/-! ### Walks with related states -/

/-- What is decided at a stop of one walk is what is decided at a stop of another one, as far
as `R` tells of states and `S` of results. -/
inductive Stride.Alike {σ' ρ' : Type} (R : σ → σ' → Prop) (S : ρ → ρ' → Prop) :
    Stride σ ρ → Stride σ' ρ' → Prop
  | done {result result'} (h : S result result') :
    Stride.Alike R S (.done result) (.done result')
  | go {extra state state'} (h : R state state') :
    Stride.Alike R S (.go extra state) (.go extra state')

/-- Two walks along a text with related states, which decide alike wherever they stop, come to
the same result. -/
theorem walk_alike {σ' ρ' : Type} {R : σ → σ' → Prop} {S : ρ → ρ' → Prop}
    {stop' : Nat → σ' → List Char → Stride σ' ρ'} {finish' : Nat → σ' → ρ'}
    (hfinish : ∀ position state state', R state state' →
      S (finish position state) (finish' position state'))
    (hstop : ∀ position state state' ahead, R state state' →
      (stop position state ahead).Alike R S (stop' position state' ahead))
    (skip position : Nat) {state : σ} {state' : σ'} (text : List Char) (h : R state state') :
    S (walk stop finish skip position state text) (walk stop' finish' skip position state' text)
      := by
  induction text generalizing skip position state state' with
  | nil =>
    rw [walk, walk]
    exact hfinish position state state' h
  | cons c rest ih =>
    cases skip with
    | succ skip =>
      rw [walk, walk]
      exact ih skip (position + 1) h
    | zero =>
      rw [walk, walk]
      have halike := hstop position state state' (c :: rest) h
      generalize stop position state (c :: rest) = stride at halike
      generalize stop' position state' (c :: rest) = stride' at halike
      cases halike with
      | done hresult => exact hresult
      | go hstate => exact ih _ (position + 1) hstate

/-! ### Walks within a text -/

/-- Two ways to stop decide alike before the end of `front`, whatever is behind it. `reach`
is how far a walk sees to end well; it does so `margin` characters behind the stop or more. -/
structure StopAlike {α ε : Type} (stop stop' : Nat → σ → List Char → Stride σ (Except ε α))
    (rel : σ → σ → Prop) (reach : α → Nat) (margin : Nat) (front back back' : List Char) :
    Prop where
  margin_pos : 0 < margin
  margin_le : ∀ position state ahead a, stop position state ahead = .done (.ok a) →
    position + margin ≤ reach a
  done : ∀ position state state' a, rel state state' → position + margin ≤ front.length →
    reach a ≤ front.length → stop position state (front.drop position ++ back) = .done (.ok a) →
    stop' position state' (front.drop position ++ back') = .done (.ok a)
  go : ∀ position extra state state' next, rel state state' →
    position + 1 + extra + margin ≤ front.length →
    stop position state (front.drop position ++ back) = .go extra next →
    ∃ next', stop' position state' (front.drop position ++ back') = .go extra next' ∧
      rel next next'

section

variable {α ε : Type} {stop stop' : Nat → σ → List Char → Stride σ (Except ε α)}
  {finish finish' : Nat → σ → Except ε α} {rel : σ → σ → Prop} {reach : α → Nat} {margin : Nat}
  {front back back' : List Char} {position : Nat} {state state' : σ} {a : α}

theorem StopAlike.le_reach (halike : StopAlike stop stop' rel reach margin front back back')
    (hfinish : ∀ position state a, finish position state ≠ .ok a) {text : List Char}
    (h : Walks stop finish text position state (.ok a)) : position + margin ≤ reach a := by
  generalize hresult : (Except.ok a : Except ε α) = result at h
  induction h with
  | finish => exact absurd hresult.symm (hfinish _ _ _)
  | done _ hstop =>
    subst hresult
    exact halike.margin_le _ _ _ _ hstop
  | go _ _ _ ih =>
    have hle := ih hresult
    omega

theorem StopAlike.walks (halike : StopAlike stop stop' rel reach margin front back back')
    (hfinish : ∀ position state a, finish position state ≠ .ok a)
    (h : Walks stop finish (front ++ back) position state (.ok a)) (hreach : reach a ≤ front.length)
    (hrel : rel state state') : Walks stop' finish' (front ++ back') position state' (.ok a) := by
  generalize hresult : (Except.ok a : Except ε α) = result at h
  have hmargin := halike.margin_pos
  induction h generalizing state' with
  | finish => exact absurd hresult.symm (hfinish _ _ _)
  | @done position state result _ hstop =>
    subst hresult
    have hle := halike.margin_le _ _ _ _ hstop
    rw [List.drop_append_of_le_length (by omega)] at hstop
    refine .done (by rw [List.length_append]; omega) ?_
    rw [List.drop_append_of_le_length (by omega)]
    exact halike.done _ _ _ _ hrel (by omega) hreach hstop
  | @go position state extra next result _ hstop hrest ih =>
    subst hresult
    have hle := halike.le_reach hfinish hrest
    rw [List.drop_append_of_le_length (by omega)] at hstop
    obtain ⟨next', hstop', hnext⟩ := halike.go _ _ _ _ _ hrel (by omega) hstop
    refine .go (by rw [List.length_append]; omega) ?_ (ih hnext rfl)
    rwa [List.drop_append_of_le_length (by omega)]

/-- A walk that ends well within a text goes the same way whatever is behind the text. -/
theorem StopAlike.walk (halike : StopAlike stop stop' rel reach margin front back back')
    (hfinish : ∀ position state a, finish position state ≠ .ok a)
    (h : walk stop finish 0 position state ((front ++ back).drop position) = .ok a)
    (hreach : reach a ≤ front.length) (hrel : rel state state') :
    position + margin ≤ front.length ∧
      PipelineLang.walk stop' finish' 0 position state' ((front ++ back').drop position) =
        .ok a := by
  by_cases hposition : position ≤ (front ++ back).length
  · have hwalks : Walks stop finish (front ++ back) position state (.ok a) := by
      rw [← h]
      exact walks_walk state hposition
    have hle := halike.le_reach hfinish hwalks
    have hmargin := halike.margin_pos
    refine ⟨by omega, (halike.walks hfinish hwalks hreach hrel).walk_eq ?_⟩
    rw [List.length_append]
    omega
  · rw [List.drop_of_length_le (by omega), PipelineLang.walk] at h
    exact absurd h (hfinish _ _ _)

end

end PipelineLang
