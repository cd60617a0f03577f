/-
# Reports

A witness and a domain as texts for a reader, and a witness as JSON. Sets of predicates are written
in braces; empty lists are named as such or left out.
-/

import RouteSolver.Route.Json
import RouteSolver.Witness.Search

namespace RouteSolver

/-- A line with a label, indented. -/
def labelled (label value : String) : String := "  " ++ label ++ ": " ++ value ++ "\n"

/-- A value, or a remark if there is nothing to show. -/
def orElseNote (isEmpty : Bool) (note value : String) : String := if isEmpty then note else value

/-- All lines of a text. -/
def lines (ls : List String) : String := String.join ls

namespace Wish

/-- The word for a wish in data. -/
def keyword : Wish → String
  | protocol _ => "protocol"
  | localPreference _ => "local_preference"
  | prefixIn _ => "prefix_in"
  | prefixAtLeast _ _ => "prefix_at_least"

/-- What a wish asks for, as JSON. -/
def valueJson : Wish → Json
  | protocol p => p.toJson
  | localPreference n => Json.ofWord32 n
  | prefixIn networks => Json.ofList Network.toJson networks
  | prefixAtLeast address length =>
    .record [("address", address.toJson), ("length", .natural length.toNat)]

/-- A wish is a record of its kind and what it asks for. -/
def toJson (w : Wish) : Json := .record [("kind", .text w.keyword), ("value", w.valueJson)]

end Wish

namespace Route

/-- A route in a report. -/
def report (r : Route) : String :=
  let communities := Text.joinWith " " (r.communities.toList.map Community.text)
  let clusters := Text.joinWith " " (r.clusterList.toList.map fun n => Decimal.text n.toNat)
  lines
    (["Witness route:\n",
      labelled "network" r.network.text,
      labelled "protocol" r.protocol.name,
      labelled "local preference" (Decimal.text r.localPreference.toNat),
      labelled "admin distance" (Decimal.text r.adminDistance.toNat),
      labelled "metric" (Decimal.text r.metric.toNat),
      labelled "tag" (Decimal.text r.tag.toNat),
      labelled "origin type" r.originType.keyword,
      labelled "next hop" r.nextHop.text,
      labelled "AS path" (orElseNote r.asPath.isEmpty "(empty)" r.asPath.text),
      labelled "communities" (orElseNote r.communities.isEmpty "(none)" communities)]
    ++ if r.clusterList.isEmpty then [] else [labelled "cluster list" clusters])

end Route

namespace Environment

/-- An environment in a report. -/
def report (e : Environment) : String :=
  let tracks := Text.joinWith ", " e.successfulTracks
  lines
    (["Environment:\n",
      labelled "successful tracks" (orElseNote e.successfulTracks.isEmpty "(none)" tracks)]
    ++ (e.sourceVrf.map (labelled "source VRF")).toList)

end Environment

namespace Witness

/-- The wishes that have been granted, in a report. -/
def grantedReport (ws : List Wish) : String :=
  if ws.isEmpty then ""
  else lines ("Preferences applied:\n" :: ws.map fun w => "  " ++ w.text ++ "\n")

/-- A witness for a reader. -/
def report (w : Witness) : String :=
  w.route.report ++ w.environment.report ++ grantedReport w.granted

/-- A witness is a record of the route, the environment and the wishes that have been granted. -/
def toJson (w : Witness) : Json :=
  .record [("route", w.route.toJson), ("environment", w.environment.toJson),
    ("bias", Json.ofList Wish.toJson w.granted)]

end Witness

namespace Partition

/-- The least member of each part. -/
def exampleLines (p : Partition) : List String :=
  p.parts.zipIdx.map fun (a, i) =>
    "  [" ++ Decimal.text i ++ "] e.g. " ++ (a.example?.getD "(empty)") ++ "\n"

/-- The parts of each named language. -/
def nameLines (p : Partition) : List String :=
  p.named.map fun (name, parts) =>
    "  " ++ name ++ " -> \x7b" ++ Text.joinWith ", " (parts.map Decimal.text) ++ "\x7d\n"

end Partition

namespace Domain

/-- Names on a line of their own, if there are any. -/
def namesLine (label : String) (names : List String) : List String :=
  if names.isEmpty then [] else [label ++ ": " ++ Text.joinWith ", " names ++ "\n"]

/-- All predicates of a domain with their least members, for a reader. -/
def listing (d : Domain) : String :=
  lines
    (["Community atomic predicates:\n"]
    ++ d.standardCommunities.exampleLines
    ++ (d.numberedOthers.map fun (i, c) =>
      "  [" ++ Decimal.text i ++ "] literal " ++ c.text ++ "\n")
    ++ d.standardCommunities.nameLines
    ++ ["AS path atomic predicates:\n"]
    ++ d.asPaths.exampleLines
    ++ d.asPaths.nameLines
    ++ namesLine "Tracks" d.tracks
    ++ namesLine "Source VRFs" d.sourceVrfs
    ++ namesLine "Next-hop interfaces" d.nextHopInterfaces)

end Domain
end RouteSolver
