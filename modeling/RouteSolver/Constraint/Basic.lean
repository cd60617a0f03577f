/-
# Constraints on routes

What can be asked of a route and its environment, and the names that a constraint mentions.
`NameList.addConstraints` adds those names to the names that a domain has to know.
-/

import RouteSolver.Domain.Basic
import RouteSolver.Route.Basic

namespace RouteSolver

/-- The numbers of a route that can be bounded. -/
inductive NumberField where
  | localPreference
  | adminDistance
  | metric
  | tag
  /-- How many identifiers the cluster list has. -/
  | clusterListLength
deriving DecidableEq, Repr

/-- The lists of names that a constraint can refer to. -/
inductive NameKind where
  | community
  | asPath
  | nextHopInterface
  | track
  | sourceVrf
deriving DecidableEq, Repr

namespace NameKind

/-- How a name of this kind is announced in messages. -/
def label : NameKind → String
  | community => "community"
  | asPath => "AS path regex"
  | nextHopInterface => "next-hop interface"
  | track => "track"
  | sourceVrf => "source VRF"

end NameKind

/-- A constraint on a route and its environment. -/
inductive Constraint where
  | protocol (p : Protocol)
  | originType (o : OriginType)
  /-- A number lies between two bounds, both included. -/
  | within (field : NumberField) (min max : Option UInt32)
  /-- The prefix lies in a network, and its length between two bounds. -/
  | prefixWithin (network : Network) (minLength maxLength : Option UInt8)
  /-- The next hop lies in a network. -/
  | nextHopWithin (network : Network)
  /-- The route has the community, or one that matches the router pattern. Exactly one of the two is
  meant to be given. -/
  | community (literal : Option Community) (regex : Option String)
  /-- The AS path matches a router pattern. -/
  | asPath (regex : String)
  | nextHopInterface (name : String)
  | track (name : String)
  | sourceVrf (name : String)
  | not (c : Constraint)
  | allOf (cs : List Constraint)
  | anyOf (cs : List Constraint)

instance : Inhabited Constraint := ⟨.allOf []⟩

mutual
/-- Add the names that a constraint mentions. -/
def NameList.addConstraint (names : NameList) : Constraint → NameList
  | .community literal regex =>
    { names with
      communities := names.communities ++ (literal.map Community.text).toList
      communityRegexes := names.communityRegexes ++ regex.toList }
  | .asPath regex => { names with asPathRegexes := names.asPathRegexes ++ [regex] }
  | .nextHopInterface name =>
    { names with nextHopInterfaces := names.nextHopInterfaces ++ [name] }
  | .track name => { names with tracks := names.tracks ++ [name] }
  | .sourceVrf name => { names with sourceVrfs := names.sourceVrfs ++ [name] }
  | .not c => names.addConstraint c
  | .allOf cs => names.addConstraints cs
  | .anyOf cs => names.addConstraints cs
  | .protocol _ | .originType _ | .within _ _ _ | .prefixWithin _ _ _ | .nextHopWithin _ => names

/-- Add the names that some constraints mention. -/
def NameList.addConstraints (names : NameList) : List Constraint → NameList
  | [] => names
  | c :: cs => (names.addConstraint c).addConstraints cs
end

end RouteSolver
