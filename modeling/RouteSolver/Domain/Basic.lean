/-
# Domains

What the symbolic side of a route can distinguish: the atomic predicates of communities and AS
paths, the extended and large communities that are named, and the names of tracks, source VRFs and
next-hop interfaces. `NameList` lists the names that a domain has to know, and `NameList.domain`
builds the domain.

Standard communities are the members of a partition of all delimited communities. The other named
communities are numbered after its parts.
-/

import RouteSolver.Community
import RouteSolver.Domain.Delimited
import RouteSolver.Domain.Partition

namespace RouteSolver

/-- How a constraint names communities: one by one, or by a router pattern. -/
inductive CommunityPattern where
  | literal (c : Community)
  | regex (pattern : String)
deriving DecidableEq

namespace CommunityPattern

/-- The name of the pattern among the languages of communities. A standard community goes by the
pattern that matches it alone, so either way of naming it leads to the same parts. -/
def name? : CommunityPattern → Option String
  | literal (.standard c) => some (Delimited.ofCommunity c)
  | literal _ => none
  | regex pattern => some pattern

/-- The pattern as it is written. -/
def text : CommunityPattern → String
  | literal c => c.text
  | regex pattern => pattern

end CommunityPattern

/-- The domain of a symbolic route. -/
structure Domain where
  /-- The atomic predicates of standard communities. -/
  standardCommunities : Partition
  /-- The other communities that are named. -/
  otherCommunities : List Community
  /-- The atomic predicates of AS paths. -/
  asPaths : Partition
  /-- The names of tracks. -/
  tracks : List String
  /-- The names of source VRFs. -/
  sourceVrfs : List String
  /-- The names of next-hop interfaces. -/
  nextHopInterfaces : List String

namespace Domain

/-- How many communities and classes of communities can be told apart. -/
def communityCount (d : Domain) : Nat := d.standardCommunities.size + d.otherCommunities.length

/-- The other communities with their numbers. -/
def numberedOthers (d : Domain) : List (Nat × Community) :=
  d.otherCommunities.zipIdx.map fun p => (d.standardCommunities.size + p.2, p.1)

/-- The numbers of the communities that a pattern names, if the domain knows the pattern. -/
def communities? (d : Domain) (pattern : CommunityPattern) : Option (List Nat) :=
  match pattern.name?, pattern with
  | some name, _ => d.standardCommunities.find? name
  | none, .literal c => (d.numberedOthers.find? fun p => decide (p.2 = c)).map fun p => [p.1]
  | none, .regex _ => none

/-- The numbers of the classes of AS paths that a pattern names, if the domain knows the
pattern. -/
def asPaths? (d : Domain) (pattern : String) : Option (List Nat) := d.asPaths.find? pattern

end Domain

/-- The names that a domain has to know. -/
structure NameList where
  /-- Communities in any of their text forms. -/
  communities : List String
  /-- Router patterns of communities. -/
  communityRegexes : List String
  /-- Router patterns of AS paths. -/
  asPathRegexes : List String
  /-- Tracks. -/
  tracks : List String
  /-- Source VRFs. -/
  sourceVrfs : List String
  /-- Next-hop interfaces. -/
  nextHopInterfaces : List String
deriving DecidableEq, Repr, Inhabited

/-- Why a domain cannot be built. -/
inductive DomainError where
  /-- A text writes no community. -/
  | invalidCommunity (text : String)
  /-- A pattern is none. -/
  | invalidPattern (e : InvalidPattern)
deriving DecidableEq, Repr

/-- What is said about it. -/
def DomainError.message : DomainError → String
  | invalidCommunity text => "invalid community literal \x60" ++ text ++ "\x60"
  | invalidPattern e => e.message

namespace NameList

/-- No names. -/
def empty : NameList := ⟨[], [], [], [], [], []⟩

/-- The communities that some texts write. -/
def readCommunities : List String → Except DomainError (List Community)
  | [] => .ok []
  | text :: rest =>
    match Community.read? text with
    | none => .error (.invalidCommunity text)
    | some c => (readCommunities rest).map (c :: ·)

/-- The language of a pattern over standard communities, under its name. Other communities have no
such language. -/
def communityLanguage? : CommunityPattern → Except DomainError (Option (String × Automaton))
  | .literal (.standard c) =>
    .ok (some (Delimited.ofCommunity c, Delimited.onlyCommunity c))
  | .literal _ => .ok none
  | .regex pattern =>
    match Delimited.matchingCommunities pattern with
    | .ok language => .ok (some (pattern, language))
    | .error e => .error (.invalidPattern e)

/-- The language of a pattern over AS paths, under its name. -/
def asPathLanguage (pattern : String) : Except DomainError (String × Automaton) :=
  match Delimited.matchingAsPaths pattern with
  | .ok language => .ok (pattern, language)
  | .error e => .error (.invalidPattern e)

/-- The communities among some patterns that are not standard. -/
def others (patterns : List CommunityPattern) : List Community :=
  patterns.filterMap fun
    | .literal c => if c.isStandard then none else some c
    | .regex _ => none

/-- The domain that knows all of the names. Repeated names count once, in the place of the first;
the first fault in the order communities, patterns of communities, patterns of AS paths is
reported. -/
def domain (names : NameList) : Except DomainError Domain := do
  let communities ← readCommunities names.communities
  let patterns :=
    (communities.map CommunityPattern.literal
      ++ names.communityRegexes.map CommunityPattern.regex).eraseDups
  let communityLanguages ← patterns.mapM communityLanguage?
  let asPathLanguages ← names.asPathRegexes.eraseDups.mapM asPathLanguage
  return {
    standardCommunities :=
      .ofLanguages Delimited.allCommunities (communityLanguages.filterMap id)
    otherCommunities := others patterns
    asPaths := .ofLanguages Delimited.allAsPaths asPathLanguages
    tracks := names.tracks.eraseDups
    sourceVrfs := names.sourceVrfs.eraseDups
    nextHopInterfaces := names.nextHopInterfaces.eraseDups }

end NameList
end RouteSolver
