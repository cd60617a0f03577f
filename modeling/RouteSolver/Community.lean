/-
# BGP communities

Standard, extended and large communities with their text forms:

| kind | text |
| --- | --- |
| standard | `high:low`, 16 bits each |
| extended | `target:global:local` or `origin:global:local`, not both numbers above 16 bits |
| large | `large:global:local:local`, 32 bits each; `large:` may be left out when reading |

The numbers are runs of ASCII digits. Communities are ordered by kind, then by their parts from the
left; `rank` puts that order into one number.
-/

import RouteSolver.AscendingSet
import RouteSolver.Text.Decimal
import RouteSolver.Text.Split

namespace RouteSolver

/-- A standard community. -/
structure StandardCommunity where
  /-- The first half. -/
  high : UInt16
  /-- The second half. -/
  low : UInt16
deriving DecidableEq, Repr

/-- What an extended community says about a route. -/
inductive ExtendedKind where
  | target
  | origin
deriving DecidableEq, Repr

/-- An extended community: one of its two numbers fits in 16 bits. -/
structure ExtendedCommunity where
  /-- What it says. -/
  kind : ExtendedKind
  /-- The number of the administrator. -/
  administrator : UInt32
  /-- The number that the administrator has given. -/
  assigned : UInt32
  /-- Both together take at most 48 bits. -/
  fits : administrator.toNat < 65536 ∨ assigned.toNat < 65536
deriving DecidableEq

/-- A large community. -/
structure LargeCommunity where
  /-- The number of the administrator. -/
  administrator : UInt32
  /-- The first number that the administrator has given. -/
  first : UInt32
  /-- The second one. -/
  second : UInt32
deriving DecidableEq, Repr

/-- Reads a 16-bit number. -/
def word16? (cs : List Char) : Option UInt16 := (Decimal.readUpTo? 65535 cs).map UInt16.ofNat

/-- Reads a 32-bit number. -/
def word32? (cs : List Char) : Option UInt32 := (Decimal.readUpTo? 4294967295 cs).map UInt32.ofNat

namespace StandardCommunity

/-- Both halves in one number. -/
def number (c : StandardCommunity) : Nat := c.high.toNat * 65536 + c.low.toNat

/-- The text of a standard community. -/
def text (c : StandardCommunity) : String :=
  Decimal.text c.high.toNat ++ ":" ++ Decimal.text c.low.toNat

/-- The standard community that a text writes. -/
def read? (cs : List Char) : Option StandardCommunity := do
  let (high, low) ← Text.cut ':' cs
  return ⟨← word16? high, ← word16? low⟩

end StandardCommunity

namespace ExtendedKind

/-- The word that begins the text. -/
def keyword : ExtendedKind → String
  | target => "target"
  | origin => "origin"

/-- The kind that a word announces. -/
def ofKeyword? (cs : List Char) : Option ExtendedKind :=
  if cs = "target".toList then some target
  else if cs = "origin".toList then some origin
  else none

/-- Targets come before origins. -/
def rank : ExtendedKind → Nat
  | target => 0
  | origin => 1

end ExtendedKind

namespace ExtendedCommunity

/-- The extended community of two numbers, if it has room for them. -/
def of? (kind : ExtendedKind) (administrator assigned : UInt32) : Option ExtendedCommunity :=
  if h : administrator.toNat < 65536 ∨ assigned.toNat < 65536 then
    some ⟨kind, administrator, assigned, h⟩
  else none

/-- The text of an extended community. -/
def text (c : ExtendedCommunity) : String :=
  c.kind.keyword ++ ":" ++ Decimal.text c.administrator.toNat ++ ":"
    ++ Decimal.text c.assigned.toNat

/-- The extended community that a text writes. -/
def read? (cs : List Char) : Option ExtendedCommunity := do
  let (keyword, rest) ← Text.cut ':' cs
  let kind ← ExtendedKind.ofKeyword? keyword
  let (administrator, assigned) ← Text.cut ':' rest
  of? kind (← word32? administrator) (← word32? assigned)

end ExtendedCommunity

namespace LargeCommunity

/-- The word that may begin the text. -/
def keyword : String := "large:"

/-- The text of a large community. -/
def text (c : LargeCommunity) : String :=
  keyword ++ Decimal.text c.administrator.toNat ++ ":" ++ Decimal.text c.first.toNat ++ ":"
    ++ Decimal.text c.second.toNat

/-- The large community that a text writes. -/
def read? (cs : List Char) : Option LargeCommunity := do
  let body := (Text.dropStart? keyword.toList cs).getD cs
  match Text.split ':' body with
  | [a, b, c] => return ⟨← word32? a, ← word32? b, ← word32? c⟩
  | _ => none

end LargeCommunity

/-- A community of any kind. -/
inductive Community where
  | standard (c : StandardCommunity)
  | extended (c : ExtendedCommunity)
  | large (c : LargeCommunity)
deriving DecidableEq

namespace Community

/-- Whether the community is a standard one. -/
def isStandard : Community → Bool
  | standard _ => true
  | _ => false

/-- The text of a community. -/
def text : Community → String
  | standard c => c.text
  | extended c => c.text
  | large c => c.text

/-- The community that a text writes: standard, else extended, else large. -/
def read? (text : String) : Option Community :=
  let cs := text.toList
  ((StandardCommunity.read? cs).map standard).or <|
    ((ExtendedCommunity.read? cs).map extended).or <|
      (LargeCommunity.read? cs).map large

/-- Two parts side by side in one number, where the second one has 32 bits. -/
def beside (a b : Nat) : Nat := a * 4294967296 + b

/-- Kind, then the parts from the left, each in 32 bits of one number. -/
def rank : Community → Nat
  | standard c => beside c.high.toNat c.low.toNat
  | extended c =>
    beside (beside (beside 1 c.kind.rank) c.administrator.toNat) c.assigned.toNat
  | large c =>
    beside (beside (beside 2 c.administrator.toNat) c.first.toNat) c.second.toNat

instance : Ranked Community := ⟨rank⟩

theorem beside_inj {a b a' b' : Nat} (hb : b < 4294967296) (hb' : b' < 4294967296)
    (h : beside a b = beside a' b') : a = a' ∧ b = b' := by
  rw [beside, beside] at h
  omega

/-- The kind stands above three parts of 32 bits. -/
theorem rank_standard_div (c : StandardCommunity) :
    rank (standard c) / 4294967296 / 4294967296 / 4294967296 = 0 := by
  have := c.high.toNat_lt
  have := c.low.toNat_lt
  simp only [rank, beside]
  omega

theorem rank_extended_div (c : ExtendedCommunity) :
    rank (extended c) / 4294967296 / 4294967296 / 4294967296 = 1 := by
  have := c.administrator.toNat_lt
  have := c.assigned.toNat_lt
  have : c.kind.rank ≤ 1 := by cases c.kind <;> decide
  simp only [rank, beside]
  omega

theorem rank_large_div (c : LargeCommunity) :
    rank (large c) / 4294967296 / 4294967296 / 4294967296 = 2 := by
  have := c.administrator.toNat_lt
  have := c.first.toNat_lt
  have := c.second.toNat_lt
  simp only [rank, beside]
  omega

theorem rank_standard_injective {c d : StandardCommunity}
    (h : rank (standard c) = rank (standard d)) : c = d := by
  have hlt : ∀ n : UInt16, n.toNat < 4294967296 := fun n => Nat.lt_trans n.toNat_lt (by decide)
  obtain ⟨hhigh, hlow⟩ := beside_inj (hlt c.low) (hlt d.low) h
  cases c
  cases d
  rw [StandardCommunity.mk.injEq]
  exact ⟨UInt16.toNat_inj.1 hhigh, UInt16.toNat_inj.1 hlow⟩

theorem rank_extended_injective {c d : ExtendedCommunity}
    (h : rank (extended c) = rank (extended d)) : c = d := by
  obtain ⟨h, hassigned⟩ := beside_inj c.assigned.toNat_lt d.assigned.toNat_lt h
  obtain ⟨h, hadministrator⟩ := beside_inj c.administrator.toNat_lt d.administrator.toNat_lt h
  have hlt : ∀ k : ExtendedKind, k.rank < 4294967296 := fun k => by cases k <;> decide
  obtain ⟨-, hrank⟩ := beside_inj (hlt c.kind) (hlt d.kind) h
  obtain ⟨k, a, b, _⟩ := c
  obtain ⟨k', a', b', _⟩ := d
  obtain rfl := UInt32.toNat_inj.1 hadministrator
  obtain rfl := UInt32.toNat_inj.1 hassigned
  cases k <;> cases k' <;> first | rfl | nomatch hrank

theorem rank_large_injective {c d : LargeCommunity} (h : rank (large c) = rank (large d)) :
    c = d := by
  obtain ⟨h, hsecond⟩ := beside_inj c.second.toNat_lt d.second.toNat_lt h
  obtain ⟨h, hfirst⟩ := beside_inj c.first.toNat_lt d.first.toNat_lt h
  obtain ⟨-, hadministrator⟩ := beside_inj c.administrator.toNat_lt d.administrator.toNat_lt h
  cases c
  cases d
  rw [LargeCommunity.mk.injEq]
  exact ⟨UInt32.toNat_inj.1 hadministrator, UInt32.toNat_inj.1 hfirst, UInt32.toNat_inj.1 hsecond⟩

/-- **Communities of one rank are equal.** -/
theorem rank_injective {a b : Community} (h : rank a = rank b) : a = b := by
  have hkind := congrArg (· / 4294967296 / 4294967296 / 4294967296) h
  cases a <;> cases b <;>
    simp only [rank_standard_div, rank_extended_div, rank_large_div] at hkind
  case standard.standard => exact congrArg standard (rank_standard_injective h)
  case extended.extended => exact congrArg extended (rank_extended_injective h)
  case large.large => exact congrArg large (rank_large_injective h)
  all_goals nomatch hkind

/-- What is said about a text that writes no community. -/
def invalidMessage (text : String) : String := "invalid community \x60" ++ text ++ "\x60"

end Community
end RouteSolver
