/-!
# Walking along a text

A walk passes along a text from left to right with a state. At each stop it looks
at the text ahead and either ends with a result or passes one or more characters.

## Main definitions

- `Stride` — what is decided at a stop
- `walk` — the walk

## Design notes

The walk recurses on the text. Characters to be passed without a stop are counted
down, so that a stop may pass any number of them.
-/

namespace PipelineLang

/-- What is decided at a stop of a walk. -/
inductive Stride (σ ρ : Type) where
  /-- The walk ends. -/
  | done (result : ρ)
  /-- The walk passes the next character and `extra` more before it stops again. -/
  | go (extra : Nat) (state : σ)

/-- Walk along a text that starts at `position`, passing `skip` characters before
the first stop. Each stop is told its position and the text ahead, which is not
empty; `finish` answers if the text ends first. -/
def walk {σ ρ : Type} (stop : Nat → σ → List Char → Stride σ ρ) (finish : Nat → σ → ρ) :
    (skip position : Nat) → σ → List Char → ρ
  | _, position, state, [] => finish position state
  | skip + 1, position, state, _ :: rest => walk stop finish skip (position + 1) state rest
  | 0, position, state, c :: rest =>
    match stop position state (c :: rest) with
    | .done result => result
    | .go extra state' => walk stop finish extra (position + 1) state' rest

end PipelineLang
