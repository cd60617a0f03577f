/-
# The least member of a language

A breadth-first walk over ascending bytes reaches every state first by its least path, where
shorter strings come first and strings of one length are compared byte by byte. So the first
accepting state taken from the queue gives the least member of the language.
-/

import RouteSolver.Automaton.Basic

namespace RouteSolver
namespace Automaton

/-- States waiting to be looked at, each with the reverse of its least path, and the states that
have been put there. -/
structure Search where
  /-- The queue; nothing is ever taken out, a position in it moves on. -/
  queue : Array (Nat × List UInt8)
  /-- Which states are in the queue. -/
  seen : Array Bool

/-- Put the successors of a state that are new at the end of the queue. -/
def Search.extend (a : Automaton) (state : Nat) (path : List UInt8) :
    List UInt8 → Search → Search
  | [], search => search
  | b :: bs, search =>
    let next := a.step state b
    if search.seen.getD next true then extend a state path bs search
    else extend a state path bs
      ⟨search.queue.push (next, b :: path), search.seen.setIfInBounds next true⟩

/-- Look at the queue from position `i` on, at most `bound` states of it. -/
def leastFrom (a : Automaton) : Nat → Nat → Search → Option (List UInt8)
  | 0, _, _ => none
  | bound + 1, i, search =>
    match search.queue[i]? with
    | none => none
    | some (state, path) =>
      if a.isAccepting state then some path.reverse
      else leastFrom a bound (i + 1)
        (Search.extend a state path a.alphabet.representatives.toList search)

/-- The least member of the language: the shortest, and of those the first in byte order. A state
enters the queue once, so the number of states bounds the walk. -/
def leastBytes (a : Automaton) : Option (List UInt8) :=
  a.leastFrom a.size 0 ⟨#[(0, [])], (Array.replicate a.size false).setIfInBounds 0 true⟩

/-- The least member of the language as a text. -/
def example? (a : Automaton) : Option String := a.leastBytes.map Utf8.decode

end Automaton
end RouteSolver
