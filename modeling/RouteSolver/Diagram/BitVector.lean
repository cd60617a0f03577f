/-
# Unsigned integers over diagram variables

A `BitVector` is a list of diagrams, most significant bit first. The comparisons with a constant
walk the bits from the least significant one and keep in `acc` the comparison of the bits seen so
far: a higher bit either decides alone or hands the question down. A constant that the vector is
too narrow for is larger than every value.
-/

import RouteSolver.Diagram.Basic

namespace RouteSolver
namespace Diagram

/-- An unsigned integer, most significant bit first. -/
structure BitVector where
  /-- The bits, most significant first. -/
  bits : List Ref
deriving DecidableEq, Repr

namespace BitVector

/-- The widest vector that can be laid out. -/
def maxWidth : Nat := 64

/-- A vector that is too wide to be laid out. -/
structure TooWide where
  /-- The width asked for. -/
  width : Nat
deriving DecidableEq, Repr

/-- What is said about a vector that is too wide. -/
def TooWide.message (e : TooWide) : String :=
  "bitvector width " ++ toString e.width ++ " exceeds " ++ toString maxWidth ++ " bits"

/-- Lay a vector out over the variables `first, …, first + width - 1`. -/
def layOut (first width : Nat) : Build BitVector := do
  let bits ← (List.range' first width).mapM positive
  return ⟨bits⟩

/-- Lay a vector out unless it is too wide. -/
def layOut? (first width : Nat) : Except TooWide (Build BitVector) :=
  if width ≤ maxWidth then .ok (layOut first width) else .error ⟨width⟩

/-- Number of bits. -/
def width (x : BitVector) : Nat := x.bits.length

/-- The largest value that fits. -/
def maxValue (x : BitVector) : Nat := Nat.pow 2 x.width - 1

/-- The bits of the constant `n` as literals over the given bits, least significant first. -/
def literals (n : Nat) : List Ref → Build (List Ref)
  | [] => pure []
  | bit :: bits => do
    let literal ← if n % 2 = 1 then pure bit else neg bit
    let rest ← literals (n / 2) bits
    return literal :: rest

/-- "The vector equals `n`." -/
def eq (x : BitVector) (n : Nat) : Build Ref := do
  if x.maxValue < n then return .bot
  conjAll (← literals n x.bits.reverse)

/-- "At least `n`" over bits given from the least significant one, where `acc` compares the bits
below them. -/
def geFrom (n : Nat) (acc : Ref) : List Ref → Build Ref
  | [] => pure acc
  | bit :: bits => do
    let next ← if n % 2 = 1 then conj bit acc else disj bit acc
    geFrom (n / 2) next bits

/-- "The vector is at least `n`." -/
def ge (x : BitVector) (n : Nat) : Build Ref :=
  if x.maxValue < n then pure .bot else geFrom n .top x.bits.reverse

/-- "At most `n`" over bits given from the least significant one, where `acc` compares the bits
below them. -/
def leFrom (n : Nat) (acc : Ref) : List Ref → Build Ref
  | [] => pure acc
  | bit :: bits => do
    let clear ← neg bit
    let next ← if n % 2 = 1 then disj clear acc else conj clear acc
    leFrom (n / 2) next bits

/-- "The vector is at most `n`." -/
def le (x : BitVector) (n : Nat) : Build Ref :=
  if x.maxValue ≤ n then pure .top else leFrom n .top x.bits.reverse

/-- "The vector lies between `lo` and `hi`, both included." -/
def between (x : BitVector) (lo hi : Nat) : Build Ref := do
  let lower ← x.ge lo
  let upper ← x.le hi
  conj lower upper

/-- The integer that a model forces: a bit counts when the model entails it, so a bit the model
leaves open reads as zero. -/
def valueUnder (x : BitVector) (s : Store) (model : Ref) : Nat :=
  x.bits.foldl (fun acc bit => 2 * acc + (s.entails model bit).toNat) 0

end BitVector
end Diagram
end RouteSolver
