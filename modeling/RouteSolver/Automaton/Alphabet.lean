/-
# Letters: bytes that nothing tells apart

An automaton that treats many bytes alike needs one column for all of them. An `Alphabet` sorts
the 256 bytes into numbered letters and keeps for every letter the least byte in it. Letters are
numbered by their least byte, so reading the representatives in order is reading bytes in order.

`number` is the one numbering scheme of the automata: members of a list that have the same key get
the same number, and new numbers are given out in the order of the list.
-/

import Std.Data.HashMap

namespace RouteSolver

/-- The numbers of the members of a list, and the first member of each number. -/
structure Numbered (α : Type) where
  /-- The number of each member. -/
  codes : Array Nat
  /-- The first member with each number. -/
  firsts : Array α

namespace Numbered

variable {α κ : Type} [BEq κ] [Hashable κ]

/-- Number the rest of a list; `known` holds the numbers of the keys met so far. -/
def extend (key : α → κ) (known : Std.HashMap κ Nat) (n : Numbered α) : List α → Numbered α
  | [] => n
  | x :: xs =>
    let k := key x
    match known[k]? with
    | some i => extend key known { n with codes := n.codes.push i } xs
    | none =>
      let i := n.firsts.size
      extend key (known.insert k i) ⟨n.codes.push i, n.firsts.push x⟩ xs

end Numbered

/-- Number a list by key, in order of first occurrence. -/
def number {α κ : Type} [BEq κ] [Hashable κ] (key : α → κ) (xs : List α) : Numbered α :=
  Numbered.extend key ∅ ⟨#[], #[]⟩ xs

/-- The 256 bytes in order. -/
def allBytes : List UInt8 := (List.range 256).map UInt8.ofNat

/-- A partition of the bytes into letters. -/
structure Alphabet where
  /-- The letter of each byte. -/
  letterOf : Array Nat
  /-- The least byte of each letter. -/
  representatives : Array UInt8
deriving DecidableEq, Repr, Inhabited

namespace Alphabet

/-- The alphabet whose letters are the bytes with the same key. -/
def ofKey {κ : Type} [BEq κ] [Hashable κ] (key : UInt8 → κ) : Alphabet :=
  let n := number key allBytes
  ⟨n.codes, n.firsts⟩

/-- The letter of a byte. -/
def letter (a : Alphabet) (b : UInt8) : Nat := a.letterOf.getD b.toNat 0

/-- The coarsest alphabet that is finer than both. -/
def meet (a b : Alphabet) : Alphabet :=
  ofKey fun byte => a.letter byte * b.representatives.size + b.letter byte

/-- The alphabet with a single letter. -/
def unit : Alphabet := ofKey fun _ => ()

end Alphabet
end RouteSolver
