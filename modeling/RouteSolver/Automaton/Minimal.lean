/-
# Minimal automata

Two states are equivalent when the same byte strings lead from them to acceptance. Starting from
the partition into accepting and other states, `refine` splits every class by the classes of the
successors until their number stands still. `minimize` then explores one state per class and joins
letters whose columns agree. The result depends on the language alone: states are numbered breadth
first over ascending bytes, letters by their least byte.
-/

import RouteSolver.Automaton.Basic

namespace RouteSolver
namespace Automaton

/-- The class of a state and the classes of its successors, letter by letter. -/
def signature (a : Automaton) (classes : Array Nat) (state : Nat) : List Nat :=
  classes.getD state 0 :: (a.rows.getD state #[]).toList.map (classes.getD · 0)

/-- Split the classes by signature. -/
def refine (a : Automaton) (classes : Array Nat) : Numbered Nat :=
  number (a.signature classes) (List.range a.size)

/-- Refine until the number of classes stands still, at most `bound` times. -/
def stabilize (a : Automaton) : Nat → Nat → Array Nat → Array Nat
  | 0, _, classes => classes
  | bound + 1, count, classes =>
    let refined := a.refine classes
    if refined.firsts.size = count then refined.codes
    else stabilize a bound refined.firsts.size refined.codes

/-- The class of every state: states of one class accept the same byte strings. A refinement that
is not the last adds a class, so the number of states bounds their number. -/
def classes (a : Automaton) : Array Nat :=
  let initial := number a.isAccepting (List.range a.size)
  a.stabilize (a.size + 1) initial.firsts.size initial.codes

/-- The successors of all states for one letter. -/
def column (a : Automaton) (letter : Nat) : List Nat :=
  a.rows.toList.map (·.getD letter 0)

/-- Join the letters whose columns agree. -/
def mergeLetters (a : Automaton) : Automaton :=
  let n := number a.column (List.range a.alphabet.representatives.size)
  { alphabet :=
      { letterOf := a.alphabet.letterOf.map (n.codes.getD · 0)
        representatives := n.firsts.map (a.alphabet.representatives.getD · 0) }
    accepting := a.accepting
    rows := a.rows.map fun row => n.firsts.map (row.getD · 0) }

/-- The minimal automaton of the same language. -/
def minimize (a : Automaton) : Automaton :=
  let classes := a.classes
  (explore a.alphabet (classes.getD · 0) a.step a.isAccepting a.size 0).mergeLetters

end Automaton
end RouteSolver
