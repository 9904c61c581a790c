import PipelineLang.Address.Reading
import PipelineLang.Text.Matcher

/-!
# Addresses and subnets at the head of a text

## Main definitions

- `Address.quadMatcher` — the characters of a dotted quad
- `Address.groupsMatcher` — the characters of an address in groups
- `Address.matcher` — the longer of the two
- `Address.subnetMatcher` — an address with a slash and the length of a network part

## Design notes

A matcher checks the shape only: an octet is any run of one to three digits.

An address in groups is read from left to right. Where a colon has been passed
and a dotted quad follows, the quad ends the address if it fits as its last two
groups; if it does not fit, the address ends at the last place where it was
complete.
-/

namespace PipelineLang.Address

open Matcher

/-- The characters of an octet. -/
def octetMatcher : Matcher := run Char.isDigit 1 3

/-- The characters of a dotted quad. -/
def quadMatcher : Matcher :=
  octetMatcher.followedBy ((exactly '.').followedBy (octetMatcher.followedBy
    ((exactly '.').followedBy (octetMatcher.followedBy ((exactly '.').followedBy octetMatcher)))))

/-- The longest complete address that starts with the groups already passed and
goes on with `text`, as a number of characters of `text`. At most `left` groups
may follow; `gap` says that `::` has been passed and `afterColon` that the
character just passed is a colon. -/
def moreGroups : (left : Nat) → (gap afterColon : Bool) → List Char → Option Nat
  | 0, _, _, _ => none
  | left + 1, gap, afterColon, text =>
    match if afterColon then quadMatcher text else none with
    | some quad => if (if gap then 2 ≤ left else left = 1) then some quad else none
    | none =>
      let digits := (text.takeWhile Ascii.isHexDigit).length
      if digits = 0 || 4 < digits then none
      else if left = 0 then (if gap then none else some digits)
      else
        let here := if gap then some digits else none
        match text.drop digits with
        | ':' :: ':' :: rest =>
          if gap then here
          else some (digits + 2 + (moreGroups left true true rest).getD 0)
        | ':' :: c :: rest =>
          if Ascii.isHexDigit c then
            ((moreGroups left gap true (c :: rest)).map (digits + 1 + ·)).or here
          else here
        | _ => here

/-- The characters of an address in groups. -/
def groupsMatcher : Matcher
  | ':' :: ':' :: rest => some (2 + (moreGroups 8 true true rest).getD 0)
  | text => moreGroups 8 false false text

/-- The characters of an address. -/
def matcher : Matcher := quadMatcher.longer groupsMatcher

/-- A slash and the length of a network part of at most `most` digits. -/
def lengthMatcher (most : Nat) : Matcher := (exactly '/').followedBy (run Char.isDigit 1 most)

/-- The characters of a subnet. -/
def subnetMatcher : Matcher :=
  (quadMatcher.followedBy (lengthMatcher 2)).longer (groupsMatcher.followedBy (lengthMatcher 3))

/-- Whether a text reads as a path of two words: a `::`, and before and after it
a word that starts with a letter or an underscore. -/
def isPathShaped (text : List Char) : Bool :=
  match breakAtGap text with
  | none => false
  | some (before, after) => isName before && isName after
where
  /-- Whether a part of an address reads as a word. -/
  isName : List Char → Bool
    | [] => false
    | c :: cs => Ascii.isWordStart c && !cs.contains ':'

/-- Whether a single colon, not next to another one, separates two groups. -/
def hasSingleColon : List Char → Bool
  | a :: ':' :: b :: rest => (a != ':' && b != ':') || hasSingleColon (':' :: b :: rest)
  | _ :: rest => hasSingleColon rest
  | [] => false

end PipelineLang.Address
