/-
# Scenarios

A scenario asks for a route: names that are known beforehand, constraints, and preferences. Its
formula is the conjunction of all constraints and of what makes a route well formed.
-/

import RouteSolver.Constraint.Formula
import RouteSolver.Preference

namespace RouteSolver

open Diagram

/-- A question: which route satisfies all of the constraints? -/
structure Scenario where
  /-- Names that are known beforehand. -/
  names : NameList
  /-- What has to hold. -/
  constraints : List Constraint
  /-- What is wished besides. -/
  preferences : Preferences

namespace Scenario

/-- The names known beforehand and all names that the constraints mention. -/
def allNames (s : Scenario) : NameList := s.names.addConstraints s.constraints

/-- The conjunction of well-formedness and of all constraints. -/
def formula (s : Scenario) (l : Layout) (d : Domain) : FormulaBuild Ref := do
  let wellFormed ← l.wellFormed
  let fs ← Constraint.formulas l d s.constraints
  conjAll (wellFormed :: fs)

end Scenario
end RouteSolver
