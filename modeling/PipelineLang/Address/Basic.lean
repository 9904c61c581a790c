import PipelineLang.Text.Ascii

/-!
# Network addresses

An address is a number of 32 or of 128 bits, written in octets or in groups of
sixteen bits.

## Main definitions

- `Address` — an address of either family
- `Address.ofOctets`, `Address.ofGroups` — the address with given digits
- `Address.octets`, `Address.groups` — the digits of an address
- `Address.toText` — the canonical spelling of an address

## Design notes

The canonical spelling of a long address drops leading zeros, writes `::` for
the first longest run of two or more zero groups, and ends in octets if the
address embeds a short one behind the group `ffff`.
-/

namespace PipelineLang

/-- A network address. -/
inductive Address where
  /-- An address of four octets. -/
  | v4 (value : BitVec 32)
  /-- An address of eight groups of sixteen bits. -/
  | v6 (value : BitVec 128)
deriving Repr, BEq, DecidableEq

namespace Address

/-- The number with the given digits in base `base`, the first the most significant. -/
def valueOf (base : Nat) (digits : List Nat) : Nat :=
  digits.foldl (fun value digit => base * value + digit) 0

/-- The short address with the given octets. -/
def ofOctets (octets : List Nat) : Address := .v4 (BitVec.ofNat 32 (valueOf 256 octets))

/-- The long address with the given groups. -/
def ofGroups (groups : List Nat) : Address := .v6 (BitVec.ofNat 128 (valueOf 65536 groups))

/-- The lowest `count` digits of `n` in base `base`, the most significant first. -/
def digitsOf (base : Nat) (n : Nat) : (count : Nat) → List Nat
  | 0 => []
  | count + 1 => digitsOf base (n / base) count ++ [n % base]

/-- The octets of a short address. -/
def octets (value : BitVec 32) : List Nat := digitsOf 256 value.toNat 4

/-- The groups of a long address. -/
def groups (value : BitVec 128) : List Nat := digitsOf 65536 value.toNat 8

/-- Octets in decimal, separated by points. -/
def dottedText (octets : List Nat) : String :=
  ".".intercalate (octets.map toString)

/-- Groups in hexadecimal, separated by colons. -/
def colonText (groups : List Nat) : String :=
  ":".intercalate (groups.map fun group => String.ofList (Nat.toDigits 16 group))

/-- The length of the run of zeros at the head of `groups`. -/
def zeroRun (groups : List Nat) : Nat := (groups.takeWhile (· == 0)).length

/-- The start and length of the first longest run of zero groups from the
`index`-th on, or `best` if no run is longer. -/
def longestZeroRun (index : Nat) (best : Nat × Nat) : List Nat → Nat × Nat
  | [] => best
  | group :: rest =>
    let run := zeroRun (group :: rest)
    longestZeroRun (index + 1) (if best.2 < run then (index, run) else best) rest

/-- The spelling of eight groups. -/
def groupsText (groups : List Nat) : String :=
  match groups with
  | [0, 0, 0, 0, 0, 65535, high, low] =>
    "::ffff:" ++ dottedText [high / 256, high % 256, low / 256, low % 256]
  | _ =>
    let (start, length) := longestZeroRun 0 (0, 0) groups
    if length ≤ 1 then colonText groups
    else colonText (groups.take start) ++ "::" ++ colonText (groups.drop (start + length))

/-- The canonical spelling of an address. -/
def toText : Address → String
  | .v4 value => dottedText (octets value)
  | .v6 value => groupsText (groups value)

/-- The number of bits in an address of this family. -/
def width : Address → Nat
  | .v4 _ => 32
  | .v6 _ => 128

end Address

end PipelineLang
