/-
# Atomic predicates

The coarsest partition of a language such that each of some named languages is a union of parts of
it. The parts are the atomic predicates: for satisfying constraints, members of one part are alike.

`Partition.refine` splits every part by one more language and drops empty halves. Afterwards a
language consists of the parts that it contains.
-/

import RouteSolver.Automaton.Boolean
import RouteSolver.Automaton.Example

namespace RouteSolver

/-- A partition of a language, and the parts that each named language consists of. -/
structure Partition where
  /-- The parts, numbered from zero. -/
  parts : List Automaton
  /-- The numbers of the parts of each named language, in ascending order. -/
  named : List (String × List Nat)
deriving DecidableEq, Repr, Inhabited

namespace Partition

/-- Split every part by a language: what is inside it first, then what is outside. -/
def refine (parts : List Automaton) (language : Automaton) : List Automaton :=
  parts.flatMap fun part =>
    [part.inter language, part.minus language].filter fun half => !half.isEmpty

/-- Of languages with the same name the first counts. -/
def firstOfName : List (String × Automaton) → List (String × Automaton)
  | [] => []
  | (name, language) :: rest =>
    (name, language) :: (firstOfName rest).filter fun other => other.1 != name

/-- The numbers of the parts that a language contains. -/
def partsOf (parts : List Automaton) (language : Automaton) : List Nat :=
  (parts.zipIdx.filter fun p => p.1.subsetOf language).map (·.2)

/-- The coarsest partition of `whole` that respects all of the named languages. -/
def ofLanguages (whole : Automaton) (languages : List (String × Automaton)) : Partition :=
  let languages := firstOfName languages
  let parts := (languages.map (·.2)).foldl refine (if whole.isEmpty then [] else [whole])
  ⟨parts, languages.map fun l => (l.1, partsOf parts l.2)⟩

/-- Given parts, without names. Nothing is asked of them. -/
def ofParts (parts : List Automaton) : Partition := ⟨parts, []⟩

/-- Number of parts. -/
def size (p : Partition) : Nat := p.parts.length

/-- The numbers of the parts that a named language consists of. -/
def find? (p : Partition) (name : String) : Option (List Nat) := p.named.lookup name

end Partition
end RouteSolver
