import PipelineLang.Text.Matcher

/-!
# Durations

A duration is a whole number of units: `5min`, `100ms`, `3years`.

## Main definitions

- `DurationUnit` — the units, with their length in nanoseconds
- `DurationUnit.suffixes` — how the units are written
- `Duration.matcher` — the characters of a duration at the head of a text
- `Duration`, `Duration.read?` — a duration and its reading from text
- `Duration.nanos?` — the length of a duration in nanoseconds

## Design notes

The count of a duration is kept only if it fits in 64 bits; a longer one leaves
a duration without a value. A year counts 365 days.
-/

namespace PipelineLang

/-- A unit of time. -/
inductive DurationUnit where
  | nanoseconds | microseconds | milliseconds | seconds | minutes
  | hours | days | weeks | years
deriving Repr, BEq, DecidableEq, Inhabited

namespace DurationUnit

/-- The suffixes that name a unit. -/
def suffixes : List (String × DurationUnit) :=
  [("ns", .nanoseconds), ("us", .microseconds), ("ms", .milliseconds),
   ("s", .seconds), ("sec", .seconds), ("second", .seconds), ("seconds", .seconds),
   ("m", .minutes), ("min", .minutes), ("minute", .minutes), ("minutes", .minutes),
   ("h", .hours), ("hr", .hours), ("hour", .hours), ("hours", .hours),
   ("d", .days), ("day", .days), ("days", .days),
   ("w", .weeks), ("week", .weeks), ("weeks", .weeks),
   ("y", .years), ("year", .years), ("years", .years)]

/-- The unit that a suffix names. -/
def ofSuffix? (suffix : String) : Option DurationUnit := suffixes.lookup suffix

/-- The nanoseconds in a second. -/
def nanosPerSecond : Nat := 1000000000

/-- The length of a unit in nanoseconds. -/
def nanos : DurationUnit → Nat
  | .nanoseconds => 1
  | .microseconds => 1000
  | .milliseconds => 1000000
  | .seconds => nanosPerSecond
  | .minutes => 60 * nanosPerSecond
  | .hours => 3600 * nanosPerSecond
  | .days => 86400 * nanosPerSecond
  | .weeks => 7 * 86400 * nanosPerSecond
  | .years => 365 * 86400 * nanosPerSecond

/-- The name of a unit in listings of the tree. -/
def name : DurationUnit → String
  | .nanoseconds => "Nanoseconds" | .microseconds => "Microseconds"
  | .milliseconds => "Milliseconds" | .seconds => "Seconds" | .minutes => "Minutes"
  | .hours => "Hours" | .days => "Days" | .weeks => "Weeks" | .years => "Years"

end DurationUnit

/-- A duration as it was written. -/
structure Duration where
  text : String
  /-- The count of units, unless it exceeds 64 bits. -/
  magnitude : Option Nat
  unit : DurationUnit
deriving Repr, BEq, DecidableEq, Inhabited

namespace Duration

/-- The longest unit suffix at the head of a text. -/
def unitMatcher : Matcher :=
  DurationUnit.suffixes.foldr (fun unit best => (Matcher.word unit.1.toList).longer best)
    fun _ => none

/-- The characters of a duration: digits and the longest unit that follows. -/
def matcher : Matcher := (Matcher.runs Char.isDigit).followedBy unitMatcher

/-- The greatest count that a duration can have. -/
def maxMagnitude : Nat := 0xffffffffffffffff

/-- The number that `digits` denote, if there are any and it is at most `most`. -/
def boundedNumber? (most : Nat) (digits : List Char) : Option Nat :=
  let value := Ascii.number 10 digits
  if digits.isEmpty || most < value then none else some value

/-- The duration that a text denotes: digits, then a unit and nothing else. -/
def read? (text : String) : Option Duration := do
  let count := text.toList.takeWhile Char.isDigit
  let unit ← DurationUnit.ofSuffix? (String.ofList (text.toList.dropWhile Char.isDigit))
  return ⟨text, boundedNumber? maxMagnitude count, unit⟩

/-- The length in nanoseconds. -/
def nanos? (duration : Duration) : Option Nat :=
  duration.magnitude.map (· * duration.unit.nanos)

end Duration

end PipelineLang
