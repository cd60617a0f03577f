/-
# Models read off a diagram

Every diagram other than the false one has a path to the true constant, because a node never has
two equal children. Following the low child whenever it is not false gives the least such path:
`leastPath` lists the variables it asks for with their values. From that path come two cubes, that
is conjunctions of literals:

* `pathCube` fixes the variables on the path and leaves all others open;
* `leastModel` fixes every variable named so far, those off the path to false.
-/

import RouteSolver.Diagram.Basic

namespace RouteSolver
namespace Diagram

/-- `leastPath` with a bound on the length. -/
def Store.leastPathWithin (s : Store) : Nat → Ref → List (Nat × Bool)
  | 0, _ => []
  | bound + 1, r =>
    if r.isConstant then []
    else
      let n := s.node r
      if n.low ≠ .bot then (n.level, false) :: leastPathWithin s bound n.low
      else (n.level, true) :: leastPathWithin s bound n.high

/-- The variables asked for on the way to the true constant, with their values, when the low child
is taken wherever it is not false. -/
def Store.leastPath (s : Store) (r : Ref) : List (Nat × Bool) := s.leastPathWithin r.id r

/-- The literal of variable `i`, true or not, conjoined with a cube over later variables. -/
def literalAnd (i : Nat) (value : Bool) (rest : Ref) : Build Ref :=
  if value then ask i .bot rest else ask i rest .bot

/-- The cube that gives each listed variable its listed value; variables are listed in ascending
order. -/
def cube : List (Nat × Bool) → Build Ref
  | [] => pure .top
  | (i, value) :: rest => do
    let below ← cube rest
    literalAnd i value below

/-- Give the variables `first, …, first + count - 1` their value on the path, or false. -/
def completePath (path : List (Nat × Bool)) (first : Nat) : Nat → List (Nat × Bool)
  | 0 => []
  | count + 1 =>
    match path with
    | (i, value) :: rest =>
      if i = first then (first, value) :: completePath rest (first + 1) count
      else (first, false) :: completePath path (first + 1) count
    | [] => (first, false) :: completePath [] (first + 1) count

/-- One satisfying path of a diagram as a cube; variables off the path stay open. False for the
false diagram. -/
def pathCube (r : Ref) : Build Ref := do
  if r = .bot then return .bot
  cube ((← get).leastPath r)

/-- The cube that fixes every variable named so far, to the least model of the diagram. False for
the false diagram. -/
def leastModel (r : Ref) : Build Ref := do
  if r = .bot then return .bot
  let s ← get
  cube (completePath (s.leastPath r) 0 s.variableCount)

end Diagram
end RouteSolver
