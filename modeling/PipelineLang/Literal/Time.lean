import PipelineLang.Text.Matcher

/-!
# Points in time

A point in time is written as a date, with or without a time of day:
`2024-01-15`, `2024-01-15T10:30:00.5+02:00`.

## Main definitions

- `Time.matcher` — the characters of a point in time at the head of a text

## Design notes

Only the shape is checked. Months, days, hours and offsets may have any two digits.
-/

namespace PipelineLang.Time

open Matcher

/-- A date: four, two and two digits, joined by hyphens. -/
def date : Matcher :=
  (digits 4).followedBy ((exactly '-').followedBy
    ((digits 2).followedBy ((exactly '-').followedBy (digits 2))))

/-- A part of a second: a point and one to nine digits. -/
def fraction : Matcher := (exactly '.').followedBy (run Char.isDigit 1 9)

/-- A time zone: `Z`, or a sign with hours and minutes. -/
def zone : Matcher :=
  (exactly 'Z').orElse ((char fun c => c == '+' || c == '-').followedBy
    ((digits 2).followedBy ((exactly ':').followedBy (digits 2))))

/-- A time of day: `T`, hours, minutes and seconds, then a fraction and a zone if
there are any. -/
def clock : Matcher :=
  (exactly 'T').followedBy ((digits 2).followedBy ((exactly ':').followedBy
    ((digits 2).followedBy ((exactly ':').followedBy ((digits 2).followedBy
      (fraction.optional.followedBy zone.optional))))))

/-- The characters of a point in time. -/
def matcher : Matcher := date.followedBy clock.optional

end PipelineLang.Time
