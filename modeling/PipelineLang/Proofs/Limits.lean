import PipelineLang.Proofs.Grammar.Misreading
import PipelineLang.Proofs.Grammar.ProgramCompleteness

/-!
# Limits of nesting

A limit only says how much of the nesting is read. Where a part is nested too deep for a first
reading, another one might take its place; but the two readings of arguments, and of what
stands in braces, are told apart by tokens that are no deeper than the place itself.

## Main results

- `Program.ofTokens_of_le` — a program is read in the same way if it may be nested deeper
- `Program.ofTokens_eq_or_tooDeep` — a smaller limit changes nothing, or the fault comes of it
-/

namespace PipelineLang

open TokenStream

namespace Program

open Grammar

/-- A program is read in the same way if it may be nested deeper. -/
theorem ofTokens_of_le {limit limit' : Nat} {tokens : List Token} {program : Program}
    (hle : limit ≤ limit') (h : ofTokens limit tokens = .ok program) :
    ofTokens limit' tokens = .ok program := by
  have hstop := kind_stop_ofTokens tokens
  obtain ⟨head, rest, frontmatter, hsplit, -, hrun⟩ :=
    frontmatter?_total_yields (TokenStream.ofTokens tokens).rest hstop
  have heof : ∀ token ∈ rest, token.kind ≠ .eof := fun token h =>
    kind_ne_of_mem_rest (by rw [hsplit]; simp [h])
  rw [EStateM.run, ← ofTokens_eq_between] at hrun
  simp only [ofTokens, hrun] at h ⊢
  cases herror : (statementsToEnd (enterTo limit limit)
      (between head rest (TokenStream.ofTokens tokens).stop)).error with
  | none =>
    rw [statementsToEnd_of_le hle hstop heof herror]
    exact h
  | some error => rw [herror] at h; cases h

/-- The call `p a` is read with a limit of one, and so with any greater one. -/
theorem ofTokens_of_le_call :
    ∃ program, ofTokens 1 [⟨.identifier, "p", .zero⟩, ⟨.identifier, "a", .zero⟩] = .ok program ∧
      ofTokens 64 [⟨.identifier, "p", .zero⟩, ⟨.identifier, "a", .zero⟩] = .ok program := by
  cases hprogram : ofTokens 1 [⟨.identifier, "p", .zero⟩, ⟨.identifier, "a", .zero⟩] with
  | ok program => exact ⟨program, rfl, ofTokens_of_le (by decide) hprogram⟩
  | error rejection =>
    have hok : (ofTokens 1 [⟨.identifier, "p", .zero⟩, ⟨.identifier, "a", .zero⟩]).isOk = true := by
      decide +kernel
    rw [hprogram] at hok
    cases hok

/-- A smaller limit changes nothing, or else there is a fault that comes of the nesting. -/
theorem ofTokens_eq_or_tooDeep {limit limit' : Nat} (hle : limit ≤ limit') (tokens : List Token) :
    ofTokens limit tokens = ofTokens limit' tokens ∨
      ∃ rejection, ofTokens limit tokens = .error rejection ∧ TooDeep limit rejection.error := by
  have hstop := kind_stop_ofTokens tokens
  obtain ⟨head, rest, frontmatter, hsplit, -, hrun⟩ :=
    frontmatter?_total_yields (TokenStream.ofTokens tokens).rest hstop
  rw [EStateM.run, ← ofTokens_eq_between] at hrun
  have he : EntersTracking (TooDeep limit) .zero (enterTo limit limit) (enterTo limit' limit') :=
    entersTracking_limits hle
  have hi := tracks_invocation he (losesBare limit limit) (losesBlock limit limit' limit limit')
  obtain ⟨error, herror, hdeep⟩ | hsame := tracks_statementsToEnd he hi
    (show (between head rest (TokenStream.ofTokens tokens).stop).stop.kind = .eof from hstop)
  · right
    simp only [ofTokens, hrun, herror]
    exact ⟨_, rfl, hdeep⟩
  · left
    rw [Movable.moved_zero, Movable.moved_zero] at hsame
    simp only [ofTokens, hrun, hsame]

/-- The arguments of `p (a, (b))` are given up, and their comma is where the first one ends. -/
example : (match ofTokens 2 [⟨.identifier, "p", .zero⟩, ⟨.lParen, "(", .zero⟩,
      ⟨.identifier, "a", .zero⟩, ⟨.comma, ",", .zero⟩, ⟨.lParen, "(", .zero⟩,
      ⟨.identifier, "b", .zero⟩, ⟨.rParen, ")", .zero⟩, ⟨.rParen, ")", .zero⟩] with
    | .error rejection => some rejection.error.cause
    | .ok _ => none) = some (.unexpected [.token .rParen] .comma) := by decide +kernel

end Program

end PipelineLang
