import PipelineLang.Address.Reading
import PipelineLang.Literal.Duration

/-!
# Addresses and subnets as literals

## Main definitions

- `IpLiteral`, `IpLiteral.ofText` — an address as it was written
- `Subnet`, `Subnet.read?` — an address and the length of its network part
- `Subnet.isValid` — the length fits the family of the address

## Design notes

A literal keeps its text even where the text denotes no address, for instance
because an octet exceeds 255. The length of a network part is read up to 65535
and checked only by `Subnet.isValid`.
-/

namespace PipelineLang

/-- An address as it was written. -/
structure IpLiteral where
  text : String
  /-- The address denoted, if there is one. -/
  address : Option Address
deriving Repr, BEq, DecidableEq

/-- The literal with a given text. -/
def IpLiteral.ofText (text : String) : IpLiteral := ⟨text, Address.ofText? text.toList⟩

/-- A subnet as it was written. -/
structure Subnet where
  text : String
  /-- The address denoted, if there is one. -/
  address : Option Address
  /-- The length of the network part in bits. -/
  bits : Nat
deriving Repr, BEq, DecidableEq

namespace Subnet

/-- The greatest length of a network part that is read. -/
def maxBits : Nat := 65535

/-- The length of a network part that a text spells; a plus sign may stand
before the digits. -/
def bits? (text : List Char) : Option Nat :=
  let digits := match text with
    | '+' :: digits => digits
    | digits => digits
  if digits.all Char.isDigit then Duration.boundedNumber? maxBits digits else none

/-- The subnet that a text spells: an address, a slash and a length. -/
def read? (text : String) : Option Subnet :=
  match text.toList.dropWhile (· != '/') with
  | [] => none
  | _ :: rest =>
    let address := Address.ofText? (text.toList.takeWhile (· != '/'))
    (bits? rest).map (⟨text, address, ·⟩)

/-- Whether the address exists and the network part is no longer than it. -/
def isValid (subnet : Subnet) : Bool :=
  match subnet.address with
  | some address => subnet.bits ≤ address.width
  | none => false

end Subnet

end PipelineLang
