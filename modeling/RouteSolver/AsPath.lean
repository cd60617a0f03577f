/-
# AS paths

A path is a list of hops. A hop is a set of AS numbers: a single number for an ordinary hop, several
where routes have been aggregated.
-/

import RouteSolver.AscendingSet
import RouteSolver.Text.Decimal
import RouteSolver.Text.Split

namespace RouteSolver

/-- One hop: a set of AS numbers. -/
structure AsSet where
  /-- The numbers. -/
  numbers : AscendingSet UInt32
deriving DecidableEq, Repr, Inhabited

namespace AsSet

/-- The hop of one AS. -/
def single (n : UInt32) : AsSet := ⟨.single n⟩

/-- The hop of a list of AS numbers. -/
def ofList (ns : List UInt32) : AsSet := ⟨.ofList ns⟩

/-- Whether there is exactly one number. -/
def isSingle (s : AsSet) : Bool := s.numbers.size == 1

/-- A single number stands alone; any other set stands in braces. -/
def text (s : AsSet) : String :=
  match s.numbers.toList with
  | [n] => Decimal.text n.toNat
  | ns => "\x7b" ++ Text.joinWith "," (ns.map fun n => Decimal.text n.toNat) ++ "\x7d"

end AsSet

/-- A list of hops, the nearest first. -/
structure AsPath where
  /-- The hops. -/
  hops : List AsSet
deriving DecidableEq, Repr, Inhabited

namespace AsPath

/-- The path without hops. -/
def empty : AsPath := ⟨[]⟩

/-- The path of single AS numbers. -/
def ofNumbers (ns : List UInt32) : AsPath := ⟨ns.map AsSet.single⟩

/-- Number of hops. -/
def length (p : AsPath) : Nat := p.hops.length

/-- Whether there is no hop. -/
def isEmpty (p : AsPath) : Bool := p.hops.isEmpty

/-- The hops with spaces between them. -/
def text (p : AsPath) : String := Text.joinWith " " (p.hops.map AsSet.text)

end AsPath
end RouteSolver
