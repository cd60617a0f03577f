/-
# From a model to a route

A model is a cube over the variables of a layout and may leave some of them open. The decoders ask
only what the model entails, so an open variable is never taken for a forced one.

A predicate over texts is decoded by the least text in it, without its marks. That text may write
no value, when a number in it is too large; such a model has no concrete route. All other failures
mean that domain, layout and model do not belong together.
-/

import RouteSolver.Layout

namespace RouteSolver

open Diagram

/-- The lists of a domain that a failure can be about. -/
inductive DomainPart where
  | community
  | asPath
  | track
  | sourceVrf
  | nextHopInterface
deriving DecidableEq, Repr

/-- The name of a list of a domain. -/
def DomainPart.label : DomainPart → String
  | community => "community"
  | asPath => "AS path"
  | track => "track"
  | sourceVrf => "source VRF"
  | nextHopInterface => "next-hop interface"

/-- Domain, layout and model do not belong together. -/
inductive Mismatch where
  /-- A predicate has no text in it. -/
  | emptyPredicate (part : DomainPart) (index : Nat)
  /-- The least text of a predicate lacks its marks. -/
  | undelimited (part : DomainPart) (index : Nat) (text : String)
  /-- The model selects several where at most one is possible. -/
  | severalSelected (part : DomainPart) (indices : List Nat)
  /-- The layout has no variable for an entry of the domain. -/
  | missingVariable (part : DomainPart) (index : Nat)
deriving DecidableEq, Repr

/-- Why a model has not been decoded. -/
inductive DecodeError where
  | mismatch (m : Mismatch)
  /-- The least text of a community predicate writes no community. -/
  | notACommunity (text : String)
  /-- A number in the least text of an AS path predicate is too large. -/
  | notAnAsNumber (token path : String)
  /-- The prefix length is above 32. -/
  | lengthTooLarge (length : Nat)
deriving DecidableEq, Repr

/-- Some numbers in brackets. -/
def bracketed (ns : List Nat) : String := "[" ++ Text.joinWith ", " (ns.map Decimal.text) ++ "]"

/-- A text between two grave accents. -/
def quoted (text : String) : String := "\x60" ++ text ++ "\x60"

/-- The predicate that a failure is about. -/
def predicateLabel (part : DomainPart) (index : Nat) : String :=
  part.label ++ " atomic predicate " ++ Decimal.text index

/-- What is said about a mismatch. -/
def Mismatch.message : Mismatch → String
  | emptyPredicate part index => predicateLabel part index ++ " has an empty language"
  | undelimited part index text =>
    "example " ++ quoted text ++ " of " ++ predicateLabel part index ++ " lacks its delimiters"
  | severalSelected part indices =>
    part.label ++ " allows at most one atomic predicate, but " ++ bracketed indices ++ " all hold"
  | missingVariable part index =>
    predicateLabel part index ++ " has no variable in the symbolic route"

/-- What is said about a failure. -/
def DecodeError.message : DecodeError → String
  | mismatch m => "internal inconsistency: " ++ m.message
  | notACommunity text =>
    "community example " ++ quoted text ++ " is not a standard, extended or large community"
  | notAnAsNumber token path =>
    "AS path token " ++ quoted token ++ " in " ++ quoted path ++ " is not a 32-bit AS number"
  | lengthTooLarge length => "prefix length " ++ Decimal.text length ++ " exceeds 32"

/-- Whether a failure means that the inputs do not belong together; any other is about this model
alone. -/
def DecodeError.isFatal : DecodeError → Bool
  | mismatch _ => true
  | _ => false

namespace Decoding

/-- The items whose variables the model entails, in order; items without a variable are left out. -/
def entailedItems {α : Type} (s : Store) (model : Ref) (items : List α) (selectors : List Ref) :
    List α :=
  ((items.zip selectors).filter fun p => s.entails model p.2).map (·.1)

/-- The items from number `index` on whose variables the model entails, with their numbers. Every
item has to have a variable. -/
def heldFrom {α : Type} (s : Store) (model : Ref) (part : DomainPart) (index : Nat) :
    List α → List Ref → Except DecodeError (List (Nat × α))
  | [], _ => .ok []
  | _ :: _, [] => .error (.mismatch (.missingVariable part index))
  | item :: items, x :: xs => do
    let rest ← heldFrom s model part (index + 1) items xs
    return if s.entails model x then (index, item) :: rest else rest

/-- The items whose variables the model entails, with their numbers. -/
def held {α : Type} (s : Store) (model : Ref) (part : DomainPart) (items : List α)
    (selectors : List Ref) : Except DecodeError (List (Nat × α)) :=
  heldFrom s model part 0 items selectors

/-- The only item of a list, if it has any. -/
def atMostOne {α : Type} (part : DomainPart) :
    List (Nat × α) → Except DecodeError (Option (Nat × α))
  | [] => .ok none
  | [p] => .ok (some p)
  | ps => .error (.mismatch (.severalSelected part (ps.map (·.1))))

/-- The text between the marks of a delimited text. -/
def unmark? (start : String) (text : String) : Option String := do
  let rest ← Text.dropStart? start.toList text.toList
  let body ← Text.dropEnd? Delimited.endMark.toList rest
  return String.ofList body

/-- The least text of a predicate, without its marks. -/
def leastBody (a : Automaton) (part : DomainPart) (index : Nat) (start : String) :
    Except DecodeError String :=
  match a.example? with
  | none => .error (.mismatch (.emptyPredicate part index))
  | some text =>
    match unmark? start text with
    | none => .error (.mismatch (.undelimited part index text))
    | some body => .ok body

/-- One standard community of each of some predicates. -/
def representatives : List (Nat × Automaton) → Except DecodeError (List Community)
  | [] => .ok []
  | (index, a) :: rest => do
    let body ← leastBody a .community index Delimited.communityStart
    match Community.read? body with
    | none => .error (.notACommunity body)
    | some c =>
      let more ← representatives rest
      return c :: more

/-- The communities that the model forces onto the route: the least one of each predicate that
holds, and every named one that holds. -/
def communities (s : Store) (model : Ref) (l : Layout) (d : Domain) :
    Except DecodeError (AscendingSet Community) := do
  let standard := d.standardCommunities.parts
  let predicates ← held s model .community standard l.communities
  let least ← representatives predicates
  let named ← heldFrom s model .community standard.length d.otherCommunities
    (l.communities.drop standard.length)
  return .ofList (least ++ named.map (·.2))

/-- The AS numbers of the tokens of a path. -/
def asNumbers (path : List Char) : List (List Char) → Except DecodeError (List UInt32)
  | [] => .ok []
  | token :: rest =>
    match word32? token with
    | none => .error (.notAnAsNumber (String.ofList token) (String.ofList path))
    | some n => (asNumbers path rest).map (n :: ·)

/-- The path that a text writes. -/
def readPath (body : String) : Except DecodeError AsPath :=
  if body.isEmpty then .ok .empty
  else (asNumbers body.toList (Text.split ' ' body.toList)).map AsPath.ofNumbers

/-- The least AS path in the predicate that the model selects, or of all if it selects none. What
goes wrong with all paths is reported under the number after the last predicate. -/
def asPath (s : Store) (model : Ref) (l : Layout) (d : Domain) : Except DecodeError AsPath := do
  let predicates ← held s model .asPath d.asPaths.parts l.asPaths
  let (index, language) :=
    match ← atMostOne .asPath predicates with
    | some (index, a) => (index, Delimited.allAsPaths.inter a)
    | none => (d.asPaths.size, Delimited.allAsPaths)
  readPath (← leastBody language .asPath index Delimited.asPathStart)

/-- The next hop of a route that enters a policy. -/
def nextHop (s : Store) (model : Ref) (l : Layout) (d : Domain) : Except DecodeError NextHop := do
  let address := Address.ofNat (l.nextHop.valueUnder s model)
  let names ← held s model .nextHopInterface d.nextHopInterfaces l.nextHopInterfaces
  match ← atMostOne .nextHopInterface names with
  | some (_, name) => return .interface name address
  | none => return .ip address

/-- The value of a field of 32 bits. -/
def word32 (s : Store) (model : Ref) (x : BitVector) : UInt32 := UInt32.ofNat (x.valueUnder s model)

/-- The route that a model describes over a layout. Originator, sender and origin mechanism are not
part of a layout and get fixed values. -/
def routeOver (s : Store) (model : Ref) (l : Layout) (d : Domain) : Except DecodeError Route := do
  let length := l.length.valueUnder s model
  match Network.of? (.ofNat (l.address.valueUnder s model)) length with
  | none => .error (.lengthTooLarge length)
  | some network =>
    return {
      network := network.truncate
      localPreference := word32 s model l.localPreference
      adminDistance := word32 s model l.adminDistance
      metric := word32 s model l.metric
      tag := word32 s model l.tag
      originType := l.originType.valueUnder s model
      protocol := l.protocol.valueUnder s model
      clusterList :=
        .ofList ((List.range (l.clusterListLength.valueUnder s model)).map UInt32.ofNat)
      communities := ← communities s model l d
      asPath := ← asPath s model l d
      nextHop := ← nextHop s model l d
      originatorIp := .unspecified
      receivedFrom := .selfOrigin
      originMechanism := .learned }

/-- The tracks and the source VRF that a model asks for. -/
def environmentOver (s : Store) (model : Ref) (l : Layout) (d : Domain) :
    Except DecodeError Environment := do
  let vrfs ← held s model .sourceVrf d.sourceVrfs l.sourceVrfs
  let vrf ← atMostOne .sourceVrf vrfs
  return ⟨entailedItems s model d.tracks l.tracks, vrf.map (·.2)⟩

/-- The route that a model describes over the layout of a domain. -/
def route (model : Ref) (d : Domain) : Build (Except DecodeError Route) := do
  let l ← Layout.ofDomain d
  return routeOver (← get) model l d

/-- The environment that a model describes over the layout of a domain. -/
def environment (model : Ref) (d : Domain) : Build (Except DecodeError Environment) := do
  let l ← Layout.ofDomain d
  return environmentOver (← get) model l d

end Decoding
end RouteSolver
