import PipelineLang.Text.Matcher

/-!
# Numbers

A number is a decimal with an optional fraction, exponent and unit, and with
underscores between digits: `42`, `1_000.5e-3`, `10Gi`.

## Main definitions

- `NumberUnit` — the units, with their multipliers
- `Number.matcher` — the characters of a number at the head of a text
- `Number`, `Number.ofText` — a number and its reading from text
- `Decimal`, `Number.decimal?` — the exact value of the digits
- `Number.value?` — the value as a floating-point number

## Design notes

The digits are read exactly, as an integer times a power of ten, and rounded
once; the multiplier of the unit is then applied by one floating-point
multiplication, which may round again or overflow to infinity.
-/

namespace PipelineLang

/-- A unit of quantity: a power of a thousand or of 1024. -/
inductive NumberUnit where
  | kibi | mebi | gibi | tebi | pebi | exbi
  | kilo | mega | giga | tera | peta | exa
deriving Repr, BEq, DecidableEq, Inhabited

namespace NumberUnit

/-- The units as they are written; those of two letters come first, so that the
first that fits is also the longest. -/
def suffixes : List (String × NumberUnit) :=
  [("Ki", .kibi), ("Mi", .mebi), ("Gi", .gibi), ("Ti", .tebi), ("Pi", .pebi), ("Ei", .exbi),
   ("k", .kilo), ("M", .mega), ("G", .giga), ("T", .tera), ("P", .peta), ("E", .exa)]

/-- The unit that a suffix names. -/
def ofSuffix? (suffix : String) : Option NumberUnit := suffixes.lookup suffix

/-- The number that the unit stands for. -/
def multiplier : NumberUnit → Nat
  | .kibi => 1024 | .mebi => Nat.pow 1024 2 | .gibi => Nat.pow 1024 3
  | .tebi => Nat.pow 1024 4 | .pebi => Nat.pow 1024 5 | .exbi => Nat.pow 1024 6
  | .kilo => Nat.pow 10 3 | .mega => Nat.pow 10 6 | .giga => Nat.pow 10 9
  | .tera => Nat.pow 10 12 | .peta => Nat.pow 10 15 | .exa => Nat.pow 10 18

end NumberUnit

/-- The decimal `coefficient * 10 ^ exponent`. -/
structure Decimal where
  coefficient : Nat
  exponent : Int
deriving Repr, BEq, DecidableEq, Inhabited

namespace Decimal

/-- The number of decimal digits of `n`, none for zero. -/
def digitCount (n : Nat) : Nat := if n = 0 then 0 else (Nat.toDigits 10 n).length

/-- The floating-point number nearest to a decimal. Whatever exceeds the range
is infinite, and whatever vanishes below it is zero. -/
def toFloat (d : Decimal) : Float :=
  let leading := d.exponent + digitCount d.coefficient
  if d.coefficient = 0 || leading < -330 then 0.0
  else if leading > 310 then 1.0 / 0.0
  else if d.exponent < 0 then Float.ofScientific d.coefficient true d.exponent.natAbs
  else Float.ofScientific d.coefficient false d.exponent.natAbs

end Decimal

/-- A number as it was written. -/
structure Number where
  text : String
  /-- The letters at the end, if there are any. -/
  unit : Option String
deriving Repr, BEq, DecidableEq, Inhabited

namespace Number

open Matcher

/-- The length of the groups of digits that follow `length` characters; `held`
says that an underscore waits for the digit that makes it part of the number. -/
def groupsFrom (length : Nat) (held : Bool) : List Char → Nat
  | [] => length
  | c :: cs =>
    if c.isDigit then groupsFrom (length + 1 + held.toNat) false cs
    else if c == '_' && !held then groupsFrom length true cs
    else length

/-- Groups of digits with single underscores between them. -/
def groups : Matcher
  | [] => none
  | c :: cs => if c.isDigit then some (groupsFrom 1 false cs) else none

/-- A point and the digits after it. -/
def fraction : Matcher := (exactly '.').followedBy groups

/-- The letter of an exponent, its sign and its digits. -/
def exponent : Matcher :=
  (char fun c => c == 'e' || c == 'E').followedBy
    ((char fun c => c == '+' || c == '-').optional.followedBy groups)

/-- A unit suffix. -/
def unitMatcher : Matcher := firstWord (NumberUnit.suffixes.map (·.1.toList))

/-- The characters of a number. -/
def matcher : Matcher :=
  groups.followedBy (fraction.optional.followedBy
    (exponent.optional.followedBy unitMatcher.optional))

/-- The number that a text spells: its unit is the letters at its end. -/
def ofText (text : String) : Number :=
  let letters := (text.toList.reverse.takeWhile Char.isAlpha).reverse
  ⟨text, if letters.isEmpty then none else some (String.ofList letters)⟩

/-- The digits before, the digits after the point, and the exponent with its sign. -/
def parts? (digits : List Char) : Option (List Char × List Char × Int) :=
  let whole := digits.takeWhile Char.isDigit
  let afterWhole := digits.dropWhile Char.isDigit
  let (part, afterPart) := match afterWhole with
    | '.' :: cs => (cs.takeWhile Char.isDigit, cs.dropWhile Char.isDigit)
    | _ => ([], afterWhole)
  if whole.isEmpty then none
  else match afterPart with
    | [] => some (whole, part, 0)
    | c :: cs =>
      let (negative, power) := match cs with
        | '+' :: ds => (false, ds)
        | '-' :: ds => (true, ds)
        | ds => (false, ds)
      if (c == 'e' || c == 'E') && !power.isEmpty && power.all Char.isDigit then
        let n : Int := Ascii.number 10 power
        some (whole, part, if negative then -n else n)
      else none

/-- The exact value of the digits, before the unit is applied. -/
def decimal? (number : Number) : Option Decimal := do
  let count := (number.unit.getD "").length
  let digits := (number.text.toList.take (number.text.length - count)).filter (· != '_')
  let (whole, part, power) ← parts? digits
  return ⟨Ascii.number 10 (whole ++ part), power - part.length⟩

/-- The number that the unit of a number multiplies by; none for letters that
name no unit. -/
def multiplier? (number : Number) : Option Nat :=
  match number.unit with
  | none => some 1
  | some suffix => (NumberUnit.ofSuffix? suffix).map (·.multiplier)

/-- The value of a number with its unit applied. -/
def value? (number : Number) : Option Float := do
  let multiplier ← number.multiplier?
  let decimal ← number.decimal?
  return decimal.toFloat * (Decimal.mk multiplier 0).toFloat

end Number

end PipelineLang
