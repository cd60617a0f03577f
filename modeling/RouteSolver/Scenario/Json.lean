/-
# Scenarios as JSON

How scenarios, name lists, preferences and constraints are written as JSON and read back. These
formats are closed: a name that is not known is refused, except in constraints. Every field has a
default outside constraints; inside, bounds and the two ways to name communities may be missing.

A constraint is tagged by its kind, and all of it is looked at before the kind is known. Inside
another constraint the kind may also be given by its number.
-/

import RouteSolver.Json.Reader
import RouteSolver.Route.Json
import RouteSolver.Scenario

namespace RouteSolver

namespace NameList

/-- The names of the fields, in their order. -/
def fieldNames : List String :=
  ["communities", "community_regexes", "as_path_regexes", "tracks", "source_vrfs",
    "next_hop_interfaces"]

/-- A list of names is a record of lists of texts. -/
def toJson (n : NameList) : Json :=
  .record (fieldNames.zip
    ([n.communities, n.communityRegexes, n.asPathRegexes, n.tracks, n.sourceVrfs,
      n.nextHopInterfaces].map (Json.ofList Json.text)))

/-- The names in a record. Missing lists are empty. -/
def ofJson? (j : Json) : Option NameList := do
  let texts? (slot : Json.Slot) : Option (List String) :=
    slot.withDefault [] (Json.listOf? Json.text?)
  match ← j.slots fieldNames true with
  | [communities, communityRegexes, asPathRegexes, tracks, sourceVrfs, nextHopInterfaces] =>
    return {
      communities := ← texts? communities
      communityRegexes := ← texts? communityRegexes
      asPathRegexes := ← texts? asPathRegexes
      tracks := ← texts? tracks
      sourceVrfs := ← texts? sourceVrfs
      nextHopInterfaces := ← texts? nextHopInterfaces }
  | _ => none

end NameList

namespace Preferences

/-- The names of the fields, in their order. -/
def fieldNames : List String :=
  ["protocol", "local_preference", "preferred_prefixes", "min_address", "min_length"]

/-- Preferences are a record of their fields. -/
def toJson (p : Preferences) : Json :=
  .record (fieldNames.zip
    [p.protocol.toJson, Json.ofWord32 p.localPreference, Json.ofList Network.toJson p.prefixes,
      p.minAddress.toJson, .natural p.minLength.toNat])

/-- The preferences in a record. Missing fields have their defaults. -/
def ofJson? (j : Json) : Option Preferences := do
  match ← j.slots fieldNames true with
  | [protocol, localPreference, prefixes, minAddress, minLength] =>
    return {
      protocol := ← protocol.withDefault default.protocol (Protocol.ofJson? false)
      localPreference := ← localPreference.withDefault default.localPreference Json.word32?
      prefixes := ← prefixes.withDefault default.prefixes (Json.listOf? Network.ofJson?)
      minAddress := ← minAddress.withDefault default.minAddress Address.ofJson?
      minLength := ← minLength.withDefault default.minLength Json.word8? }
  | _ => none

end Preferences

namespace NumberField

/-- The kind of a constraint that bounds a number. -/
def keyword : NumberField → String
  | localPreference => "local_preference"
  | adminDistance => "admin_distance"
  | metric => "metric"
  | tag => "tag"
  | clusterListLength => "cluster_list_length"

/-- The number that a constraint of some kind bounds. -/
def ofKeyword? (s : String) : Option NumberField :=
  [localPreference, adminDistance, metric, tag, clusterListLength].find? fun f => f.keyword == s

end NumberField

namespace Constraint

/-- The kinds of constraints, in their order. -/
def kinds : List String :=
  ["protocol", "origin_type", "local_preference", "admin_distance", "metric", "tag",
    "cluster_list_length", "prefix_within", "next_hop_within", "community", "as_path",
    "next_hop_interface", "track", "source_vrf", "not", "all_of", "any_of"]

/-- A record with a kind. -/
def ofKind (kind : String) (fields : List (String × Json)) : Json :=
  .record (("kind", .text kind) :: fields)

/-- A number of 8 bits as a value. -/
def ofWord8 (n : UInt8) : Json := .natural n.toNat

mutual
/-- A constraint is a record tagged by its kind. Bounds that are missing are written as null. -/
def toJson : Constraint → Json
  | .protocol p => ofKind "protocol" [("protocol", p.toJson)]
  | .originType o => ofKind "origin_type" [("origin_type", o.toJson)]
  | .within field min max =>
    ofKind field.keyword
      [("min", Json.ofOption Json.ofWord32 min), ("max", Json.ofOption Json.ofWord32 max)]
  | .prefixWithin network minLength maxLength =>
    ofKind "prefix_within"
      [("network", network.toJson), ("min_length", Json.ofOption ofWord8 minLength),
        ("max_length", Json.ofOption ofWord8 maxLength)]
  | .nextHopWithin network => ofKind "next_hop_within" [("network", network.toJson)]
  | .community literal regex =>
    ofKind "community"
      [("literal", Json.ofOption Community.toJson literal),
        ("regex", Json.ofOption Json.text regex)]
  | .asPath regex => ofKind "as_path" [("regex", .text regex)]
  | .nextHopInterface name => ofKind "next_hop_interface" [("name", .text name)]
  | .track name => ofKind "track" [("name", .text name)]
  | .sourceVrf name => ofKind "source_vrf" [("name", .text name)]
  | .not c => ofKind "not" [("constraint", c.toJson)]
  | .allOf cs => ofKind "all_of" [("constraints", .list (toJsons cs))]
  | .anyOf cs => ofKind "any_of" [("constraints", .list (toJsons cs))]

/-- Some constraints, in order. -/
def toJsons : List Constraint → List Json
  | [] => []
  | c :: cs => c.toJson :: toJsons cs
end

/-- A constraint of a kind that holds no other constraint, from its fields. -/
def leafOfJson? (kind : String) (fields : Json) : Option Constraint := do
  match NumberField.ofKeyword? kind with
  | some field =>
    match ← fields.slots ["min", "max"] false with
    | [min, max] => return .within field (← min.optional Json.word32?) (← max.optional Json.word32?)
    | _ => none
  | none =>
    match kind with
    | "protocol" =>
      match ← fields.slots ["protocol"] false with
      | [p] => return .protocol (← p.required (Protocol.ofJson? true))
      | _ => none
    | "origin_type" =>
      match ← fields.slots ["origin_type"] false with
      | [o] => return .originType (← o.required (OriginType.ofJson? true))
      | _ => none
    | "prefix_within" =>
      match ← fields.slots ["network", "min_length", "max_length"] false with
      | [network, minLength, maxLength] =>
        return .prefixWithin (← network.required Network.ofJson?)
          (← minLength.optional Json.word8?) (← maxLength.optional Json.word8?)
      | _ => none
    | "next_hop_within" =>
      match ← fields.slots ["network"] false with
      | [network] => return .nextHopWithin (← network.required Network.ofJson?)
      | _ => none
    | "community" =>
      match ← fields.slots ["literal", "regex"] false with
      | [literal, regex] =>
        return .community (← literal.optional Community.ofJson?) (← regex.optional Json.text?)
      | _ => none
    | "as_path" =>
      match ← fields.slots ["regex"] false with
      | [regex] => return .asPath (← regex.required Json.text?)
      | _ => none
    | _ =>
      match ← fields.slots ["name"] false with
      | [name] =>
        let name ← name.required Json.text?
        match kind with
        | "next_hop_interface" => return .nextHopInterface name
        | "track" => return .track name
        | "source_vrf" => return .sourceVrf name
        | _ => none
      | _ => none

/-- A constraint, of at most `bound` constraints inside each other. -/
def ofJsonWithin : Nat → Bool → Json → Option Constraint
  | 0, _, _ => none
  | bound + 1, nested, j => do
    let (kind, fields) ← j.tagged "kind" kinds nested
    if kind = "not" then
      match ← fields.slots ["constraint"] false with
      | [c] => return .not (← c.required (ofJsonWithin bound true))
      | _ => none
    else if kind = "all_of" || kind = "any_of" then
      match ← fields.slots ["constraints"] false with
      | [cs] =>
        let cs ← cs.required (Json.listOf? (ofJsonWithin bound true))
        return if kind = "all_of" then .allOf cs else .anyOf cs
      | _ => none
    else leafOfJson? kind fields

/-- A constraint inside `around` lists and records. -/
def ofJson? (around : Nat) (j : Json) : Option Constraint :=
  if !j.isReadable || Json.depthLimit < around + j.depth then none
  else ofJsonWithin j.depth false j

end Constraint

namespace Scenario

/-- The names of the fields, in their order. -/
def fieldNames : List String := ["domains", "constraints", "bias"]

/-- A scenario is a record of its names, its constraints and its preferences. -/
def toJson (s : Scenario) : Json :=
  .record (fieldNames.zip
    [s.names.toJson, .list (Constraint.toJsons s.constraints), s.preferences.toJson])

/-- The scenario of a record. Each part may be missing. -/
def ofJson? (j : Json) : Option Scenario := do
  match ← j.slots fieldNames true with
  | [names, constraints, preferences] =>
    return {
      names := ← names.withDefault .empty NameList.ofJson?
      constraints := ← constraints.withDefault [] (Json.listOf? (Constraint.ofJson? 2))
      preferences := ← preferences.withDefault .default Preferences.ofJson? }
  | _ => none

/-- The scenario that a JSON text describes. -/
def read? (text : String) : Option Scenario := do ofJson? (← Json.read? text)

end Scenario
end RouteSolver
