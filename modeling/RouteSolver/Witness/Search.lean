/-
# Finding a witness

From a scenario to a concrete route and environment: build the domain, lay a route out, build the
formula, pick a model of it, decode the model. Each step can fail in its own way, and the first
failure is the answer.
-/

import RouteSolver.Scenario
import RouteSolver.Witness.Decoding

namespace RouteSolver

open Diagram

/-- Why there is no witness. -/
inductive SearchError where
  /-- The domain cannot be built. -/
  | domain (e : DomainError)
  /-- A constraint has no formula. -/
  | constraint (e : ConstraintError)
  /-- No route satisfies the constraints. -/
  | unsatisfiable
  /-- The model has no concrete route. -/
  | decode (e : DecodeError)
deriving DecidableEq, Repr

/-- What is said about it. -/
def SearchError.message : SearchError → String
  | domain e => "Domain error: " ++ e.message
  | constraint e => "Scenario error: " ++ e.message
  | unsatisfiable => "No route satisfies the constraints"
  | decode e => "Decode error: " ++ e.message

/-- A concrete route and environment, and the wishes that have been granted. -/
structure Witness where
  route : Route
  environment : Environment
  granted : List Wish
deriving DecidableEq

namespace Witness

/-- A model of a formula: the one that preferences lead to, or the least one. -/
def pickModel (d : Domain) (preferences : Option Preferences) (formula : Ref) :
    Build (Option Steered) :=
  match preferences with
  | some p => steer d p formula
  | none => do
    let model ← leastModel formula
    return some ⟨model, []⟩

/-- The witness that a model describes. -/
def decode (d : Domain) (picked : Steered) : Build (Except SearchError Witness) := do
  match ← Decoding.route picked.model d with
  | .error e => return .error (.decode e)
  | .ok route =>
    match ← Decoding.environment picked.model d with
    | .error e => return .error (.decode e)
    | .ok environment => return .ok ⟨route, environment, picked.granted⟩

/-- Search over a domain. -/
def searchOver (d : Domain) (s : Scenario) (steered : Bool) :
    Build (Except SearchError Witness) := do
  let l ← Layout.ofDomain d
  match ← (s.formula l d).run with
  | .error e => return .error (.constraint e)
  | .ok formula =>
    if !formula.isSatisfiable then return .error .unsatisfiable
    match ← pickModel d (if steered then some s.preferences else none) formula with
    | none => return .error .unsatisfiable
    | some picked => decode d picked

/-- A route and environment that satisfy a scenario; `steered` says whether its preferences
count. -/
def search (s : Scenario) (steered : Bool) : Except SearchError Witness :=
  match s.allNames.domain with
  | .error e => .error (.domain e)
  | .ok d => ((searchOver d s steered).run .empty).1

end Witness
end RouteSolver
