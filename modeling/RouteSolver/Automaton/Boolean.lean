/-
# Boolean operations on languages

Running two automata side by side decides every Boolean combination of their languages. The pairs
that can be reached are explored, and the result is minimized. Complement exchanges accepting and
other states.
-/

import RouteSolver.Automaton.Minimal

namespace RouteSolver
namespace Automaton

/-- Both automata run side by side; a pair accepts as `accept` says. -/
def sideBySide (a b : Automaton) (accept : Bool → Bool → Bool) : Automaton :=
  explore (a.alphabet.meet b.alphabet)
    (fun p : Nat × Nat => p.1 * b.size + p.2)
    (fun p byte => (a.step p.1 byte, b.step p.2 byte))
    (fun p => accept (a.isAccepting p.1) (b.isAccepting p.2))
    (a.size * b.size) (0, 0)

/-- Byte strings in both languages. -/
def inter (a b : Automaton) : Automaton := (a.sideBySide b (· && ·)).minimize

/-- Byte strings in either language. -/
def union (a b : Automaton) : Automaton := (a.sideBySide b (· || ·)).minimize

/-- Byte strings in the first language and not in the second. -/
def minus (a b : Automaton) : Automaton := (a.sideBySide b (· && !·)).minimize

/-- Byte strings that are not in the language. -/
def compl (a : Automaton) : Automaton := { a with accepting := a.accepting.map (!·) }

/-- Whether every member of the first language is in the second. -/
def subsetOf (a b : Automaton) : Bool := (a.sideBySide b (· && !·)).isEmpty

/-- The empty language. -/
def nothing : Automaton := ⟨.unit, #[false], #[#[0]]⟩

/-- All byte strings. -/
def anything : Automaton := ⟨.unit, #[true], #[#[0]]⟩

/-- The table of a function that gives the successors. Bytes of one letter must have the same
ones. -/
def ofTable (alphabet : Alphabet) (accepting : Array Bool) (next : Nat → UInt8 → Nat) :
    Automaton where
  alphabet := alphabet
  accepting := accepting
  rows := (Array.range accepting.size).map fun q => alphabet.representatives.map (next q)

/-- The language of one byte string. State `q` has read the first `q` bytes of it; a wrong byte
leads to the last state, which is never left. -/
def ofBytes (w : List UInt8) : Automaton :=
  ofTable (Alphabet.ofKey fun b => if b ∈ w then b.toNat + 1 else 0)
    ((Array.range (w.length + 2)).map (· == w.length))
    fun q b => if w[q]? = some b then q + 1 else w.length + 1

/-- The language of one text. -/
def ofText (text : String) : Automaton := ofBytes (Utf8.bytes text)

end Automaton
end RouteSolver
