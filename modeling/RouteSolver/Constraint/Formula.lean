/-
# Constraints as diagrams

`Constraint.formula` says with the variables of a layout what a constraint asks for. It fails on a
name that the domain does not know, and on a community that is named in both ways or in none.
-/

import RouteSolver.Constraint.Basic
import RouteSolver.Layout

namespace RouteSolver

open Diagram

/-- Why a constraint has no formula. -/
inductive ConstraintError where
  /-- A community is named both by a text and by a pattern, or by neither. -/
  | ambiguousCommunity
  /-- The domain does not know a name. -/
  | unregistered (kind : NameKind) (name : String)
deriving DecidableEq, Repr

/-- What is said about it. -/
def ConstraintError.message : ConstraintError → String
  | ambiguousCommunity =>
    "community constraint needs exactly one of \x60literal\x60 and \x60regex\x60"
  | unregistered kind name => kind.label ++ " \x60" ++ name ++ "\x60 is not part of the domains"

/-- A formula being built; what is built before a failure stays in the store. -/
abbrev FormulaBuild := ExceptT ConstraintError Build

/-- The variables of a number of a route. -/
def Layout.number (l : Layout) : NumberField → BitVector
  | .localPreference => l.localPreference
  | .adminDistance => l.adminDistance
  | .metric => l.metric
  | .tag => l.tag
  | .clusterListLength => l.clusterListLength

/-- "The number lies between the bounds"; a bound that is missing does not bind. -/
def Diagram.BitVector.bounded (x : BitVector) (min max : Option UInt32) : Build Ref :=
  x.between ((min.map UInt32.toNat).getD 0) ((max.map UInt32.toNat).getD x.maxValue)

/-- "The address lies in the network." -/
def Diagram.BitVector.inNetwork (x : BitVector) (n : Network) : Build Ref :=
  x.between n.first.toNat n.last.toNat

/-- The variable of a name. -/
def namedVariable (kind : NameKind) (names : List String) (selectors : List Ref) (name : String) :
    Except ConstraintError Ref :=
  match (names.idxOf? name).bind (selectors[·]?) with
  | some x => .ok x
  | none => .error (.unregistered kind name)

/-- The variables with some numbers; numbers without a variable are passed over. -/
def selected (selectors : List Ref) (numbers : List Nat) : List Ref :=
  numbers.filterMap (selectors[·]?)

/-- The one way in which a community constraint names its communities. -/
def communityPattern (literal : Option Community) (regex : Option String) :
    Except ConstraintError CommunityPattern :=
  match literal, regex with
  | some c, none => .ok (.literal c)
  | none, some r => .ok (.regex r)
  | _, _ => .error .ambiguousCommunity

mutual
/-- The formula of a constraint. -/
def Constraint.formula (l : Layout) (d : Domain) : Constraint → FormulaBuild Ref
  | .protocol p => l.protocol.eq p
  | .originType o => l.originType.eq o
  | .within field min max => (l.number field).bounded min max
  | .prefixWithin network minLength maxLength => do
    let least := max ((minLength.map UInt8.toNat).getD 0) network.length
    let greatest := (maxLength.map UInt8.toNat).getD 32
    let inside ← l.address.inNetwork network
    let sized ← l.length.between least greatest
    conj inside sized
  | .nextHopWithin network => l.nextHop.inNetwork network
  | .community literal regex => do
    let pattern ← communityPattern literal regex
    match d.communities? pattern with
    | none => throw (.unregistered .community pattern.text)
    | some numbers => disjAll (selected l.communities numbers)
  | .asPath regex =>
    match d.asPaths? regex with
    | none => throw (.unregistered .asPath regex)
    | some numbers => disjAll (selected l.asPaths numbers)
  | .nextHopInterface name =>
    liftExcept (namedVariable .nextHopInterface d.nextHopInterfaces l.nextHopInterfaces name)
  | .track name => liftExcept (namedVariable .track d.tracks l.tracks name)
  | .sourceVrf name => liftExcept (namedVariable .sourceVrf d.sourceVrfs l.sourceVrfs name)
  | .not c => do
    let f ← c.formula l d
    neg f
  | .allOf cs => do
    let fs ← Constraint.formulas l d cs
    conjAll fs
  | .anyOf cs => do
    let fs ← Constraint.formulas l d cs
    disjAll fs

/-- The formulas of some constraints, from the left. -/
def Constraint.formulas (l : Layout) (d : Domain) : List Constraint → FormulaBuild (List Ref)
  | [] => pure []
  | c :: cs => do
    let f ← c.formula l d
    let fs ← Constraint.formulas l d cs
    return f :: fs
end

end RouteSolver
