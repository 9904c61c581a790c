import PipelineLang.Text.Ascii

/-!
# Greedy matchers

A matcher looks at the head of a text and answers how many characters it takes,
or that it does not fit. It never gives back what it has taken.

## Main definitions

- `Matcher` — a text to the number of characters taken
- `Matcher.char`, `Matcher.word`, `Matcher.run` — one character, a fixed word, a run
- `Matcher.followedBy`, `Matcher.optional`, `Matcher.orElse` — combinations
- `Matcher.longer` — the longer of two matches
-/

namespace PipelineLang

/-- The number of characters taken from the head of a text, if it fits. -/
abbrev Matcher := List Char → Option Nat

namespace Matcher

/-- One character with the property `p`. -/
def char (p : Char → Bool) : Matcher
  | [] => none
  | c :: _ => if p c then some 1 else none

/-- The characters of `letters`, in order. -/
def word (letters : List Char) : Matcher := fun text =>
  if letters.isPrefixOf text then some letters.length else none

/-- As many characters with the property `p` as there are, up to `most`; at
least `least`. -/
def run (p : Char → Bool) (least : Nat) (most : Nat) : Matcher := fun text =>
  let n := ((text.take most).takeWhile p).length
  if least ≤ n then some n else none

/-- All characters with the property `p` at the head of the text; at least one. -/
def runs (p : Char → Bool) : Matcher := fun text =>
  let n := (text.takeWhile p).length
  if n = 0 then none else some n

/-- First `a`, then `b` on what is left. -/
def followedBy (a b : Matcher) : Matcher := fun text => do
  let m ← a text
  let n ← b (text.drop m)
  return m + n

/-- What `a` takes, or nothing if it does not fit. -/
def optional (a : Matcher) : Matcher := fun text => some ((a text).getD 0)

/-- What `a` takes; if it does not fit, what `b` takes. -/
def orElse (a b : Matcher) : Matcher := fun text => (a text).or (b text)

/-- The first of `words` that fits. -/
def firstWord : List (List Char) → Matcher
  | [] => fun _ => none
  | w :: ws => (word w).orElse (firstWord ws)

/-- The longer of what `a` and `b` take. -/
def longer (a b : Matcher) : Matcher := fun text =>
  match a text, b text with
  | some m, some n => some (max m n)
  | some m, none => some m
  | none, n => n

/-- Exactly `n` decimal digits; more may follow. -/
def digits (n : Nat) : Matcher := run Char.isDigit n n

/-- The character `c`. -/
def exactly (c : Char) : Matcher := char (· == c)

end Matcher

end PipelineLang
