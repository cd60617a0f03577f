/-
# The variables of a symbolic route

A route that is not known yet is laid out over variables from 0 on, field after field in a fixed
order. The layout depends on the domain only, so laying the same domain out again in the same store
gives the same variables.

| field | encoding |
| --- | --- |
| protocol | choice among all protocols |
| prefix address | 32 bits |
| prefix length | 6 bits |
| local preference, admin distance, metric, tag | 32 bits each |
| next-hop address | 32 bits |
| cluster list length | 8 bits |
| origin type | choice among all origins |
| communities, AS paths | one variable per atomic predicate or named community |
| tracks, source VRFs, next-hop interfaces | one variable per name |

`Layout.wellFormed` says what holds of every concrete route.
-/

import RouteSolver.Diagram.BitVector
import RouteSolver.Diagram.Choice
import RouteSolver.Domain.Basic
import RouteSolver.Route.Basic

namespace RouteSolver

open Diagram

/-! ### Where the fields begin

Every field begins where the one before it ends. Those of fixed width come first; where the others
begin depends on the domain. -/

namespace Layout

/-- Bits of a prefix length. -/
def lengthWidth : Nat := 6

/-- Bits of the length of a cluster list. -/
def clusterListWidth : Nat := 8

def protocolStart : Nat := 0

def addressStart : Nat := protocolStart + Protocol.all.length

def lengthStart : Nat := addressStart + 32

def localPreferenceStart : Nat := lengthStart + lengthWidth

def adminDistanceStart : Nat := localPreferenceStart + 32

def metricStart : Nat := adminDistanceStart + 32

def tagStart : Nat := metricStart + 32

def nextHopStart : Nat := tagStart + 32

def clusterListStart : Nat := nextHopStart + 32

def originTypeStart : Nat := clusterListStart + clusterListWidth

/-- Where the list fields begin, first of them the communities. -/
def listStart : Nat := originTypeStart + OriginType.all.length

end Layout

namespace Domain

/-- Where the classes of AS paths begin. -/
def asPathStart (d : Domain) : Nat := Layout.listStart + d.communityCount

/-- Where the tracks begin. -/
def trackStart (d : Domain) : Nat := d.asPathStart + d.asPaths.size

/-- Where the source VRFs begin. -/
def sourceVrfStart (d : Domain) : Nat := d.trackStart + d.tracks.length

/-- Where the next-hop interfaces begin. -/
def nextHopInterfaceStart (d : Domain) : Nat := d.sourceVrfStart + d.sourceVrfs.length

/-- The variables of a route are those below this number. -/
def variableCount (d : Domain) : Nat := d.nextHopInterfaceStart + d.nextHopInterfaces.length

end Domain

/-- The variables of a symbolic route. -/
structure Layout where
  protocol : Choice Protocol
  address : BitVector
  length : BitVector
  localPreference : BitVector
  adminDistance : BitVector
  metric : BitVector
  tag : BitVector
  nextHop : BitVector
  clusterListLength : BitVector
  originType : Choice OriginType
  communities : List Ref
  asPaths : List Ref
  tracks : List Ref
  sourceVrfs : List Ref
  nextHopInterfaces : List Ref
  /-- The variables below this number belong to the route. -/
  variableCount : Nat
deriving DecidableEq, Repr

namespace Layout

/-- One variable each for a number of things. -/
def flags (first count : Nat) : Build (List Ref) := (List.range' first count).mapM positive

/-- Lay a route of a domain out. -/
def ofDomain (d : Domain) : Build Layout := do
  let protocol ← Choice.layOut protocolStart Protocol.all .bgp
  let address ← BitVector.layOut addressStart 32
  let length ← BitVector.layOut lengthStart lengthWidth
  let localPreference ← BitVector.layOut localPreferenceStart 32
  let adminDistance ← BitVector.layOut adminDistanceStart 32
  let metric ← BitVector.layOut metricStart 32
  let tag ← BitVector.layOut tagStart 32
  let nextHop ← BitVector.layOut nextHopStart 32
  let clusterListLength ← BitVector.layOut clusterListStart clusterListWidth
  let originType ← Choice.layOut originTypeStart OriginType.all .igp
  let communities ← flags listStart d.communityCount
  let asPaths ← flags d.asPathStart d.asPaths.size
  let tracks ← flags d.trackStart d.tracks.length
  let sourceVrfs ← flags d.sourceVrfStart d.sourceVrfs.length
  let nextHopInterfaces ← flags d.nextHopInterfaceStart d.nextHopInterfaces.length
  return {
    protocol, address, length, localPreference, adminDistance, metric, tag, nextHop,
    clusterListLength, originType, communities, asPaths, tracks, sourceVrfs, nextHopInterfaces
    variableCount := d.variableCount }

/-- What holds of every concrete route: the prefix length is at most 32; there is one protocol, one
origin and one class of AS paths, and at most one next-hop interface and one source VRF. -/
def wellFormed (l : Layout) : Build Ref := do
  let length ← l.length.le 32
  let protocol ← l.protocol.exactlyOne
  let originType ← l.originType.exactlyOne
  let asPath ← exactlyOne l.asPaths
  let nextHopInterface ← atMostOne l.nextHopInterfaces
  let sourceVrf ← atMostOne l.sourceVrfs
  conjAll [length, protocol, originType, asPath, nextHopInterface, sourceVrf]

end Layout
end RouteSolver
