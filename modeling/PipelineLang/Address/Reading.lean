import PipelineLang.Address.Basic

/-!
# Reading addresses

## Main definitions

- `Address.octets?` — the octets of a dotted quad
- `Address.groups?` — the groups of a list of groups, which may end in a dotted quad
- `Address.ofText?` — the address that a text denotes
- `breakAtGap` — the parts of a text before and after its first `::`

## Design notes

An octet has at most three digits and no leading zero, and is at most 255. A
group has at most four hexadecimal digits. A dotted quad counts as two groups
and may only stand at the end. `::` stands for at least one group of zeros.
-/

namespace PipelineLang

/-- The text before and the text after the first `::`; none if there is none. -/
def breakAtGap : List Char → Option (List Char × List Char)
  | [] => none
  | ':' :: ':' :: rest => some ([], rest)
  | c :: rest => (breakAtGap rest).map fun parts => (c :: parts.1, parts.2)

namespace Address

/-- The pieces of a text between the occurrences of `mark`. -/
def splitAt (mark : Char) : List Char → List (List Char)
  | [] => [[]]
  | c :: rest =>
    if c == mark then [] :: splitAt mark rest
    else match splitAt mark rest with
      | [] => [[c]]
      | piece :: pieces => (c :: piece) :: pieces

/-- The octet that a text spells. -/
def octet? (text : List Char) : Option Nat :=
  let value := Ascii.number 10 text
  let zeroLed := text.head? == some '0' && 1 < text.length
  if text.isEmpty || 3 < text.length || !text.all Char.isDigit || zeroLed || 255 < value then none
  else some value

/-- The octets of a dotted quad. -/
def octets? (text : List Char) : Option (List Nat) := do
  let octets ← (splitAt '.' text).mapM octet?
  if octets.length = 4 then some octets else none

/-- The group that a text spells. -/
def group? (text : List Char) : Option Nat :=
  if text.isEmpty || 4 < text.length || !text.all Ascii.isHexDigit then none
  else some (Ascii.number 16 text)

/-- The groups that the last piece of a list of groups spells: a dotted quad
counts as two. -/
def lastGroups? (text : List Char) : Option (List Nat) :=
  match octets? text with
  | some [a, b, c, d] => some [256 * a + b, 256 * c + d]
  | _ => (group? text).map ([·])

/-- The groups of one or more pieces, the last of which may be a dotted quad. -/
def pieceGroups? : List (List Char) → Option (List Nat)
  | [] => none
  | [last] => lastGroups? last
  | piece :: pieces => do
    let group ← group? piece
    let groups ← pieceGroups? pieces
    return group :: groups

/-- The groups that a text spells; the empty text spells none. -/
def groups? (text : List Char) : Option (List Nat) :=
  if text.isEmpty then some [] else pieceGroups? (splitAt ':' text)

/-- The groups in front of `::`, where no dotted quad may stand. -/
def leadingGroups? (text : List Char) : Option (List Nat) :=
  if text.isEmpty then some [] else (splitAt ':' text).mapM group?

/-- The eight groups of a long address. -/
def allGroups? (text : List Char) : Option (List Nat) :=
  match breakAtGap text with
  | none => do
    let groups ← groups? text
    if groups.length = 8 then some groups else none
  | some (before, after) => do
    let front ← leadingGroups? before
    let back ← groups? after
    if front.length + back.length ≤ 7 then
      some (front ++ List.replicate (8 - front.length - back.length) 0 ++ back)
    else none

/-- The address that a text denotes. -/
def ofText? (text : List Char) : Option Address :=
  match octets? text with
  | some octets => some (ofOctets octets)
  | none => (allGroups? text).map ofGroups

end Address

end PipelineLang
