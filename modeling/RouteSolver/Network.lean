/-
# IPv4 addresses and networks

An `Address` is 32 bits, a `Network` an address with a prefix length of at most 32. A network keeps
the host bits it was written with; `first` and `last` bound the addresses in it, and `truncate`
clears the host bits.

Addresses are read strictly, four octets without leading zeros. The octets and the length of a
network may have leading zeros, as long as they have no more than three and two digits.
-/

import RouteSolver.Text.Decimal
import RouteSolver.Text.Split

namespace RouteSolver

/-- An IPv4 address. -/
structure Address where
  /-- The 32 bits, most significant octet first. -/
  bits : UInt32
deriving DecidableEq, Repr, Inhabited

namespace Address

/-- The address with the given number. -/
def ofNat (n : Nat) : Address := ⟨UInt32.ofNat n⟩

/-- The number of an address. -/
def toNat (a : Address) : Nat := a.bits.toNat

/-- The address of four octets. -/
def ofOctets (a b c d : Nat) : Address := ofNat (((a * 256 + b) * 256 + c) * 256 + d)

/-- The address of zeros. -/
def unspecified : Address := ofNat 0

/-- The four octets. -/
def octets (a : Address) : List Nat :=
  let n := a.toNat
  [n / 256 / 256 / 256, n / 256 / 256 % 256, n / 256 % 256, n % 256]

/-- Octets in decimal with points between them. -/
def text (a : Address) : String := Text.joinWith "." (a.octets.map Decimal.text)

/-- The address of four octets, each read by `octet?`. -/
def readWith (octet? : List Char → Option Nat) (cs : List Char) : Option Address := do
  match ← (Text.split '.' cs).mapM octet? with
  | [a, b, c, d] => return ofOctets a b c d
  | _ => none

/-- An octet of at most three digits. -/
def octet? (cs : List Char) : Option Nat :=
  if cs.length ≤ 3 then Decimal.readUpTo? 255 cs else none

/-- An octet without leading zeros. -/
def strictOctet? (cs : List Char) : Option Nat :=
  if cs.head? = some '0' ∧ cs ≠ ['0'] then none else octet? cs

/-- The address that a text writes. -/
def read? (text : String) : Option Address := readWith strictOctet? text.toList

end Address

/-- An address with a prefix length. -/
structure Network where
  /-- The address, host bits included. -/
  address : Address
  /-- The prefix length. -/
  length : Nat
  /-- There are no more than 32 bits. -/
  length_le : length ≤ 32
deriving DecidableEq, Repr

namespace Network

instance : Inhabited Network := ⟨⟨.unspecified, 0, by decide⟩⟩

/-- The network of an address and a length, if the length is one. -/
def of? (address : Address) (length : Nat) : Option Network :=
  if h : length ≤ 32 then some ⟨address, length, h⟩ else none

/-- How many addresses a network has. -/
def size (n : Network) : Nat := Nat.pow 2 (32 - n.length)

/-- The lowest address: host bits zero. -/
def first (n : Network) : Address := .ofNat (n.address.toNat / n.size * n.size)

/-- The highest address: host bits one. -/
def last (n : Network) : Address := .ofNat (n.address.toNat / n.size * n.size + (n.size - 1))

/-- The network with its host bits cleared. -/
def truncate (n : Network) : Network := { n with address := n.first }

/-- The address, a slash and the length. -/
def text (n : Network) : String := n.address.text ++ "/" ++ Decimal.text n.length

/-- A prefix length of at most two digits. -/
def length? (cs : List Char) : Option Nat :=
  if cs.length ≤ 2 then Decimal.readUpTo? 32 cs else none

/-- The network that a text writes. -/
def read? (text : String) : Option Network := do
  let (address, length) ← Text.cut '/' text.toList
  of? (← Address.readWith Address.octet? address) (← length? length)

end Network
end RouteSolver
