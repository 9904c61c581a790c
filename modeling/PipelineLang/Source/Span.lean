/-!
# Spans of source text

A span says which bytes of a source a token or a syntax node came from, and on
which line and column it starts.

## Main definitions

- `Span` — a half-open range of byte offsets with the line and column of its start
- `Span.through` — from the start of one span to the end of another
- `Span.endPoint` — the empty span at the end of a span
- `Span.contains` — one range of bytes lies within another

## Design notes

Offsets count bytes of the UTF-8 encoding, columns count characters. Lines and
columns start at one; the all-zero span stands for "no position".
-/

namespace PipelineLang

/-- The bytes from `start` up to but not including `stop`; `line` and `column`
locate `start` and count from one. -/
structure Span where
  start : Nat
  stop : Nat
  line : Nat
  column : Nat
deriving Repr, BEq, DecidableEq, Inhabited

namespace Span

/-- The span of nothing in particular: all positions are zero. -/
def zero : Span := ⟨0, 0, 0, 0⟩

/-- The span from the start of `first` to the end of `last`. -/
def through (first last : Span) : Span :=
  { first with stop := last.stop }

/-- The empty span at the end of `s`, which keeps the line and column of `s`. -/
def endPoint (s : Span) : Span :=
  { s with start := s.stop }

/-- The number of bytes covered. -/
def length (s : Span) : Nat := s.stop - s.start

/-- Whether no byte is covered. -/
def isEmpty (s : Span) : Bool := s.start == s.stop

/-- Whether every byte of `inner` lies within `outer`. -/
def contains (outer inner : Span) : Bool :=
  outer.start ≤ inner.start && inner.stop ≤ outer.stop

end Span

end PipelineLang
