/-
# Routes as JSON

How routes, environments and their parts are written as JSON and read back. Addresses, networks
and communities are texts; sets are lists, read in any order; an AS path is a list of lists.
-/

import RouteSolver.Json.Record
import RouteSolver.Route.Basic

namespace RouteSolver

namespace Address

/-- An address is written as its text. -/
def toJson (a : Address) : Json := .text a.text

/-- The address that a text writes. -/
def ofJson? (j : Json) : Option Address := do read? (← j.text?)

end Address

namespace Network

/-- A network is written as its text. -/
def toJson (n : Network) : Json := .text n.text

/-- The network that a text writes. -/
def ofJson? (j : Json) : Option Network := do read? (← j.text?)

end Network

namespace Community

/-- A community is written as its text. -/
def toJson (c : Community) : Json := .text c.text

/-- The community that a text writes. -/
def ofJson? (j : Json) : Option Community := do read? (← j.text?)

end Community

namespace AsSet

/-- A hop is written as the list of its numbers, in ascending order. -/
def toJson (s : AsSet) : Json := Json.ofList Json.ofWord32 s.numbers.toList

/-- The hop of the numbers in a list, in any order. -/
def ofJson? (j : Json) : Option AsSet := (Json.listOf? Json.word32? j).map ofList

end AsSet

namespace AsPath

/-- A path is written as the list of its hops. -/
def toJson (p : AsPath) : Json := Json.ofList AsSet.toJson p.hops

/-- The path of a list of hops. -/
def ofJson? (j : Json) : Option AsPath := (Json.listOf? AsSet.ofJson? j).map AsPath.mk

end AsPath

namespace Protocol

/-- A protocol is written as its keyword. -/
def toJson (p : Protocol) : Json := .text p.keyword

/-- The protocol that a keyword names; `lax` admits an empty record after the word. -/
def ofJson? (lax : Bool) (j : Json) : Option Protocol :=
  Json.oneOf (all.map fun p => (p.keyword, p)) lax j

end Protocol

namespace OriginType

/-- An origin is written as its keyword. -/
def toJson (o : OriginType) : Json := .text o.keyword

/-- The origin that a keyword names; `lax` admits an empty record after the word. -/
def ofJson? (lax : Bool) (j : Json) : Option OriginType :=
  Json.oneOf (all.map fun o => (o.keyword, o)) lax j

end OriginType

namespace OriginMechanism

/-- An origin mechanism is written as its keyword. -/
def toJson (m : OriginMechanism) : Json := .text m.keyword

/-- The origin mechanism that a keyword names. -/
def ofJson? (j : Json) : Option OriginMechanism :=
  Json.oneOf (all.map fun m => (m.keyword, m)) false j

end OriginMechanism

namespace ReceivedFrom

/-- A sender is a word, or a record with an address. -/
def toJson : ReceivedFrom → Json
  | selfOrigin => .text "self_origin"
  | ip a => .record [("ip", a.toJson)]

/-- The sender that a word or a record with an address stands for. -/
def ofJson? : Json → Option ReceivedFrom
  | .record [("ip", j)] => (Address.ofJson? j).map ip
  | j => Json.oneOf [("self_origin", selfOrigin)] false j

end ReceivedFrom

namespace NextHop

/-- A next hop is a record tagged by its type. -/
def toJson : NextHop → Json
  | ip a => .record [("type", .text "ip"), ("ip", a.toJson)]
  | interface name a =>
    .record [("type", .text "interface"), ("interface", .text name), ("ip", a.toJson)]

/-- A next hop inside `around` lists and records. All of it is looked at before its tag is known. -/
def ofJson? (around : Nat) (j : Json) : Option NextHop := do
  if !j.isReadable || Json.depthLimit < around + j.depth then none
  match ← j.tagged "type" ["ip", "interface"] false with
  | ("ip", rest) =>
    match ← rest.slots ["ip"] false with
    | [a] => return .ip (← a.required Address.ofJson?)
    | _ => none
  | ("interface", rest) =>
    match ← rest.slots ["interface", "ip"] false with
    | [name, a] => return .interface (← name.required Json.text?) (← a.required Address.ofJson?)
    | _ => none
  | _ => none

end NextHop

namespace Route

/-- The names of the fields, in their order. -/
def fieldNames : List String :=
  ["network", "local_preference", "admin_distance", "metric", "tag", "origin_type", "protocol",
    "cluster_list", "communities", "as_path", "next_hop", "originator_ip", "received_from",
    "origin_mechanism"]

/-- A route is a record of all its fields. -/
def toJson (r : Route) : Json :=
  .record (fieldNames.zip
    [r.network.toJson, Json.ofWord32 r.localPreference, Json.ofWord32 r.adminDistance,
      Json.ofWord32 r.metric, Json.ofWord32 r.tag, r.originType.toJson, r.protocol.toJson,
      Json.ofList Json.ofWord32 r.clusterList.toList,
      Json.ofList Community.toJson r.communities.toList, r.asPath.toJson, r.nextHop.toJson,
      r.originatorIp.toJson, r.receivedFrom.toJson, r.originMechanism.toJson])

/-- The route of a record. All fields have to be there. -/
def ofJson? (j : Json) : Option Route := do
  match ← j.slots fieldNames false with
  | [network, localPreference, adminDistance, metric, tag, originType, protocol, clusterList,
      communities, asPath, nextHop, originatorIp, receivedFrom, originMechanism] =>
    return {
      network := ← network.required Network.ofJson?
      localPreference := ← localPreference.required Json.word32?
      adminDistance := ← adminDistance.required Json.word32?
      metric := ← metric.required Json.word32?
      tag := ← tag.required Json.word32?
      originType := ← originType.required (OriginType.ofJson? false)
      protocol := ← protocol.required (Protocol.ofJson? false)
      clusterList := .ofList (← clusterList.required (Json.listOf? Json.word32?))
      communities := .ofList (← communities.required (Json.listOf? Community.ofJson?))
      asPath := ← asPath.required AsPath.ofJson?
      nextHop := ← nextHop.required (NextHop.ofJson? 1)
      originatorIp := ← originatorIp.required Address.ofJson?
      receivedFrom := ← receivedFrom.required ReceivedFrom.ofJson?
      originMechanism := ← originMechanism.required OriginMechanism.ofJson? }
  | _ => none

end Route

namespace Environment

/-- An environment is a record of its tracks and its source VRF, null if there is none. -/
def toJson (e : Environment) : Json :=
  .record [("successful_tracks", Json.ofList Json.text e.successfulTracks),
    ("source_vrf", Json.ofOption Json.text e.sourceVrf)]

/-- The environment of a record. The source VRF may be missing. -/
def ofJson? (j : Json) : Option Environment := do
  match ← j.slots ["successful_tracks", "source_vrf"] false with
  | [tracks, vrf] =>
    return ⟨← tracks.required (Json.listOf? Json.text?), ← vrf.optional Json.text?⟩
  | _ => none

end Environment

end RouteSolver
