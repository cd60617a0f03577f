/-
# Complete automata over bytes

An `Automaton` is a complete deterministic automaton with start state 0, given by a table with one
row per state and one column per letter of its alphabet. Its language is the set of byte strings
on which it ends in an accepting state.

`explore` turns any deterministic machine into such a table: it numbers the states that can be
reached from the start in the order in which a breadth-first walk over ascending bytes meets them.
States with the same key become one, so a machine can be divided by an equivalence as it is
explored.
-/

import RouteSolver.Automaton.Alphabet
import RouteSolver.Text.Utf8

namespace RouteSolver

/-- A complete deterministic automaton over bytes, with start state 0. -/
structure Automaton where
  /-- Which bytes share a column. -/
  alphabet : Alphabet
  /-- Which states accept. -/
  accepting : Array Bool
  /-- The successor of each state for each letter. -/
  rows : Array (Array Nat)
deriving DecidableEq, Repr, Inhabited

namespace Automaton

/-- Number of states. -/
def size (a : Automaton) : Nat := a.accepting.size

/-- The successor of a state. -/
def step (a : Automaton) (state : Nat) (b : UInt8) : Nat :=
  (a.rows.getD state #[]).getD (a.alphabet.letter b) 0

/-- The state after reading some bytes. -/
def run (a : Automaton) (w : List UInt8) : Nat := w.foldl a.step 0

/-- Whether a state accepts. -/
def isAccepting (a : Automaton) (state : Nat) : Bool := a.accepting.getD state false

/-- Whether a byte string is in the language. -/
def acceptsBytes (a : Automaton) (w : List UInt8) : Bool := a.isAccepting (a.run w)

/-- Whether the bytes of a text are in the language. -/
def accepts (a : Automaton) (text : String) : Bool := a.acceptsBytes (Utf8.bytes text)

/-- Whether the language has no member. Every state can be reached, so it is enough that no state
accepts. -/
def isEmpty (a : Automaton) : Bool := !a.accepting.any id

/-! ### Exploring a machine -/

/-- The states met so far. -/
structure Met (σ κ : Type) [BEq κ] [Hashable κ] where
  /-- The number given to each key. -/
  numbers : Std.HashMap κ Nat
  /-- The first state of each number. -/
  states : Array σ

section
variable {σ κ : Type} [BEq κ] [Hashable κ]

/-- The number of a state, which is a new one if its key has not been met. -/
def Met.visit (key : σ → κ) (met : Met σ κ) (s : σ) : Nat × Met σ κ :=
  let k := key s
  match met.numbers[k]? with
  | some i => (i, met)
  | none =>
    let i := met.states.size
    (i, ⟨met.numbers.insert k i, met.states.push s⟩)

/-- Visit the successors of a state for the given bytes, and add their numbers to the row. -/
def Met.successors (key : σ → κ) (next : σ → UInt8 → σ) (s : σ) :
    List UInt8 → Array Nat → Met σ κ → Array Nat × Met σ κ
  | [], row, met => (row, met)
  | b :: bs, row, met =>
    let (i, met) := met.visit key (next s b)
    successors key next s bs (row.push i) met

/-- Write the rows of the states from number `i` on, for at most `bound` states. -/
def Met.rowsFrom (key : σ → κ) (next : σ → UInt8 → σ) (letters : List UInt8) :
    Nat → Nat → Array (Array Nat) → Met σ κ → Array (Array Nat) × Met σ κ
  | 0, _, rows, met => (rows, met)
  | bound + 1, i, rows, met =>
    match met.states[i]? with
    | none => (rows, met)
    | some s =>
      let (row, met) := met.successors key next s letters #[]
      rowsFrom key next letters bound (i + 1) (rows.push row) met

/-- The automaton of a machine with at most `bound` keys. Bytes of one letter must lead to the
same key, and states with the same key must accept alike and step alike. -/
def explore (alphabet : Alphabet) (key : σ → κ) (next : σ → UInt8 → σ) (accept : σ → Bool)
    (bound : Nat) (start : σ) : Automaton :=
  let (_, met) := Met.visit key ⟨∅, #[]⟩ start
  let (rows, met) := Met.rowsFrom key next alphabet.representatives.toList bound 0 #[] met
  { alphabet := alphabet, accepting := met.states.map accept, rows := rows }

end

end Automaton
end RouteSolver
