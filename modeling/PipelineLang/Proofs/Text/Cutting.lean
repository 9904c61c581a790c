import PipelineLang.Text.Walk

/-!
# How texts are cut

A walk cuts the text that it passes into pieces, one for each stop. A decoder that looks at the
head of a text, hands something out and takes a piece away cuts the text as well.

## Main definitions

- `Passes` — the pieces that a walk passes from stop to stop
- `Decodes` — the pieces that a decoder takes, each with what it hands out

## Main results

- `Decodes.eq_flatMap` — what is decoded is what the pieces stand for, one behind another
-/

namespace PipelineLang

variable {σ ρ α β : Type}

/-- The pieces that a walk along `text` passes from one stop to another. -/
inductive Passes (stop : Nat → σ → List Char → Stride σ ρ) (text : List Char) :
    (position : Nat) → σ → (pieces : List (List Char)) → (last : Nat) → σ → Prop
  | nil {position state} : Passes stop text position state [] position state
  | cons {position state extra next pieces last final}
    (hstop : stop position state (text.drop position) = .go extra next)
    (hrest : Passes stop text (position + 1 + extra) next pieces last final) :
    Passes stop text position state ((text.drop position).take (1 + extra) :: pieces) last final

/-- A decoder takes a text apart: at the head of what is left, `step` says what is handed out
and how long the piece is that stands for it. -/
inductive Decodes (step : α → List α → List β × Nat) : List α → List (List α × List β) → Prop
  | nil : Decodes step [] []
  | cons {a rest run} (hrest : Decodes step ((a :: rest).drop (step a rest).2) run) :
    Decodes step (a :: rest) (((a :: rest).take (step a rest).2, (step a rest).1) :: run)

variable {step : α → List α → List β × Nat}

namespace Decodes

/-- A piece whose length is known is taken, and the text behind it is decoded. -/
theorem piece {a : α} {tail rest : List α} {out : List β} {run : List (List α × List β)}
    (h : step a (tail ++ rest) = (out, 1 + tail.length)) (hrest : Decodes step rest run) :
    Decodes step (a :: tail ++ rest) ((a :: tail, out) :: run) := by
  have hlength : (step a (tail ++ rest)).2 = (a :: tail).length := by
    rw [h, List.length_cons, Nat.add_comm]
  have hdrop : (a :: (tail ++ rest)).drop (step a (tail ++ rest)).2 = rest := by
    rw [hlength, ← List.cons_append, List.drop_left]
  have htake : (a :: (tail ++ rest)).take (step a (tail ++ rest)).2 = a :: tail := by
    rw [hlength, ← List.cons_append, List.take_left]
  have hcons : Decodes step (a :: (tail ++ rest)) _ := .cons (hdrop.symm ▸ hrest)
  rwa [htake, h] at hcons

/-- What a decoder makes of a text is what its pieces stand for. -/
theorem eq_flatMap {decode : List α → List β} (hnil : decode [] = [])
    (hcons : ∀ a rest, decode (a :: rest) =
      (step a rest).1 ++ decode ((a :: rest).drop (step a rest).2))
    {text : List α} {run : List (List α × List β)} (h : Decodes step text run) :
    decode text = run.flatMap (·.2) := by
  induction h with
  | nil => rw [hnil, List.flatMap_nil]
  | cons _ ih => rw [hcons, ih, List.flatMap_cons]

end Decodes

end PipelineLang
