/-
# Decoding against encoding

The two directions between models and concrete routes. What is decoded from a cube encodes to the
filling of the cube, host bits of the prefix apart (`encodes_of_decode`): variables that the cube
fixes to false come back false as well. And a route that represents its classes is decoded from its
own encoding (`decode_of_encodes`, `Representable`).
-/

import RouteSolver.Proofs.Witness.Classes

namespace RouteSolver

open Diagram Delimited
open Layout (protocolStart addressStart lengthStart lengthWidth localPreferenceStart
  adminDistanceStart metricStart tagStart nextHopStart clusterListStart clusterListWidth
  originTypeStart)

/-! ### Numbers -/

theorem toNat_ofNat_value (v : Valuation) (first : Nat) :
    (UInt32.ofNat (Bits.value (block v first 32))).toNat = Bits.value (block v first 32) := by
  have h := Bits.value_lt (block v first 32)
  rw [length_block] at h
  exact UInt32.toNat_ofNat_of_lt' h

/-- A decoded number of 32 bits encodes to its block. -/
theorem ofNat_word32 (v : Valuation) (first : Nat) :
    Bits.ofNat 32 (UInt32.ofNat (Bits.value (block v first 32))).toNat = block v first 32 := by
  have h := Bits.ofNat_value (block v first 32)
  rwa [length_block, ← toNat_ofNat_value] at h

theorem ofNat_block (v : Valuation) (first width : Nat) :
    Bits.ofNat width (Bits.value (block v first width)) = block v first width := by
  have h := Bits.ofNat_value (block v first width)
  rwa [length_block] at h

theorem word32_of_block {v : Valuation} {first : Nat} {n : UInt32}
    (h : block v first 32 = Bits.ofNat 32 n.toNat) :
    UInt32.ofNat (Bits.value (block v first 32)) = n := by
  rw [h, Bits.value_ofNat n.toNat_lt, UInt32.ofNat_toNat]

/-- The cluster list of a number of identifiers. -/
def clusterList (n : Nat) : AscendingSet UInt32 := .ofList ((List.range n).map UInt32.ofNat)

theorem size_clusterList {n : Nat} (h : n ≤ 255) : (clusterList n).size = n := by
  have hnodup : ((List.range n).map UInt32.ofNat).Nodup := by
    refine List.Nodup.map_on (fun a ha b hb hab => ?_) List.nodup_range
    rw [List.mem_range] at ha hb
    have hsize : 256 ≤ UInt32.size := by decide
    have heq := congrArg UInt32.toNat hab
    rwa [UInt32.toNat_ofNat_of_lt' (Nat.lt_of_lt_of_le (by omega) hsize),
      UInt32.toNat_ofNat_of_lt' (Nat.lt_of_lt_of_le (by omega) hsize)] at heq
  rw [clusterList, AscendingSet.size_ofList hnodup, List.length_map, List.length_range]

theorem value_clusterListLength_le (v : Valuation) :
    Bits.value (block v clusterListStart clusterListWidth) ≤ 255 := by
  have h := Bits.value_lt (block v clusterListStart clusterListWidth)
  rw [length_block] at h
  exact Nat.le_of_lt_succ h

theorem Address.ofNat_toNat (a : Address) : Address.ofNat a.toNat = a :=
  congrArg Address.mk (UInt32.ofNat_toNat ..)

/-- A next hop is its address and its interface. -/
theorem NextHop.ext_parts {h k : NextHop} (haddress : h.address = k.address)
    (hinterface : h.interface? = k.interface?) : h = k := by
  cases h with
  | ip a =>
    cases k with
    | ip b => exact congrArg _ haddress
    | interface name b => exact nomatch hinterface
  | interface name a =>
    cases k with
    | ip b => exact nomatch hinterface
    | interface name' b => exact congrArg₂ _ (Option.some.inj hinterface) haddress

namespace Decoding

/-! ### What the decoders make of a valuation -/

/-- The network that a valuation describes, host bits included. -/
def networkOf (v : Valuation) (hlen : Bits.value (block v lengthStart lengthWidth) ≤ 32) :
    Network :=
  ⟨.ofNat (Bits.value (block v addressStart 32)),
    Bits.value (block v lengthStart lengthWidth), hlen⟩

/-- The route whose numbers a valuation describes. -/
def routeOf (v : Valuation) (network : Network) (protocol : Protocol) (originType : OriginType)
    (communities : AscendingSet Community) (asPath : AsPath) (nextHop : NextHop) : Route where
  network := network
  localPreference := UInt32.ofNat (Bits.value (block v localPreferenceStart 32))
  adminDistance := UInt32.ofNat (Bits.value (block v adminDistanceStart 32))
  metric := UInt32.ofNat (Bits.value (block v metricStart 32))
  tag := UInt32.ofNat (Bits.value (block v tagStart 32))
  originType := originType
  protocol := protocol
  clusterList := clusterList (Bits.value (block v clusterListStart clusterListWidth))
  communities := communities
  asPath := asPath
  nextHop := nextHop
  originatorIp := .unspecified
  receivedFrom := .selfOrigin
  originMechanism := .learned

section
variable {d : Domain} (hd : d.Valid) {s : Store} {l : Layout} {m : Ref} {p : Assignment}
  (hs : s.Valid) (hl : l.Over d s) (hm : s.IsCube m p)
include hs hl hm

theorem nextHop_eq (hd : d.Valid) (hcount : (block p.fill d.nextHopInterfaceStart
    d.nextHopInterfaces.length).count true ≤ 1) :
    ∃ h, nextHop s m l d = .ok h ∧
      h.address = .ofNat (Bits.value (block p.fill nextHopStart 32)) ∧
      nameFlags d.nextHopInterfaces h.interface? =
        block p.fill d.nextHopInterfaceStart d.nextHopInterfaces.length ∧
      ∀ n ∈ h.interface?, n ∈ d.nextHopInterfaces := by
  have hheld := held_eq hs hm .nextHopInterface hl.nextHopInterfaces (Nat.le_refl _)
  obtain ⟨o, ho, hflags, hmem⟩ := exists_atMostOne_names hd.nextHopInterfaces_nodup
    (length_block p.fill _ _) hcount .nextHopInterface
  rw [nextHop, valueUnder_eq hs hm hl.nextHop]
  simp only [hheld, ho, bind, Except.bind]
  cases o with
  | none => exact ⟨_, rfl, rfl, hflags, nofun⟩
  | some q => exact ⟨_, rfl, rfl, hflags, fun n hn => Option.some.inj hn ▸ hmem q rfl⟩

theorem environmentOver_eq (hd : d.Valid)
    (hcount : (block p.fill d.sourceVrfStart d.sourceVrfs.length).count true ≤ 1) :
    ∃ vrf, environmentOver s m l d =
        .ok ⟨(pick 0 d.tracks (block p.fill d.trackStart d.tracks.length)).map (·.2), vrf⟩ ∧
      nameFlags d.sourceVrfs vrf = block p.fill d.sourceVrfStart d.sourceVrfs.length ∧
      ∀ n ∈ vrf, n ∈ d.sourceVrfs := by
  have hheld := held_eq hs hm .sourceVrf hl.sourceVrfs (Nat.le_refl _)
  obtain ⟨o, ho, hflags, hmem⟩ := exists_atMostOne_names hd.sourceVrfs_nodup
    (length_block p.fill _ _) hcount .sourceVrf
  rw [environmentOver, entailedItems_eq hs hm d.tracks hl.tracks]
  simp only [hheld, ho, bind, Except.bind]
  refine ⟨_, rfl, hflags, fun n hn => ?_⟩
  obtain ⟨q, hq, rfl⟩ := Option.map_eq_some_iff.1 hn
  exact hmem q hq

theorem routeOver_eq_ok_iff (hlen : Bits.value (block p.fill lengthStart lengthWidth) ≤ 32)
    {protocol : Protocol}
    (hprotocol : block p.fill protocolStart Protocol.all.length = oneHot Protocol.all protocol)
    {originType : OriginType}
    (horigin :
      block p.fill originTypeStart OriginType.all.length = oneHot OriginType.all originType)
    {h : NextHop} (hnext : nextHop s m l d = .ok h) {r : Route} :
    routeOver s m l d = .ok r ↔ ∃ cs path, communities s m l d = .ok cs ∧
      asPath s m l d = .ok path ∧
      r = routeOf p.fill (networkOf p.fill hlen).truncate protocol originType cs path h := by
  have hp : l.protocol.valueUnder s m = protocol := choiceValueUnder_eq hs hm hl.protocol
    (hl.protocol_alternatives ▸ protocol.mem_all) (hl.protocol_alternatives ▸ hprotocol)
  have ho : l.originType.valueUnder s m = originType := choiceValueUnder_eq hs hm hl.originType
    (hl.originType_alternatives ▸ originType.mem_all) (hl.originType_alternatives ▸ horigin)
  have hnetwork : Network.of? (.ofNat (l.address.valueUnder s m)) (l.length.valueUnder s m) =
      some (networkOf p.fill hlen) := by
    rw [valueUnder_eq hs hm hl.address, valueUnder_eq hs hm hl.length]
    exact dif_pos hlen
  rw [routeOver]
  simp only [hnetwork, hp, ho, hnext, word32, valueUnder_eq hs hm hl.localPreference,
    valueUnder_eq hs hm hl.adminDistance, valueUnder_eq hs hm hl.metric,
    valueUnder_eq hs hm hl.tag, valueUnder_eq hs hm hl.clusterListLength, bind, Except.bind]
  cases communities s m l d with
  | error e => exact ⟨nofun, fun ⟨_, _, h, _⟩ => nomatch h⟩
  | ok cs =>
    cases asPath s m l d with
    | error e => exact ⟨nofun, fun ⟨_, _, _, h, _⟩ => nomatch h⟩
    | ok path =>
      constructor
      · intro hr
        exact ⟨cs, path, rfl, rfl, (Except.ok.inj hr).symm⟩
      · rintro ⟨cs', path', hcs, hpath, rfl⟩
        obtain rfl := Except.ok.inj hcs
        obtain rfl := Except.ok.inj hpath
        rfl

end

/-! ### Routes that represent their classes -/

/-- The route and the environment are what a decoder can give: nothing about them is lost when they
are encoded. -/
structure Representable (d : Domain) (r : Route) (e : Environment) : Prop where
  network : r.network.truncate = r.network
  clusterList : ∃ n ≤ 255, r.clusterList = clusterList n
  originatorIp : r.originatorIp = .unspecified
  receivedFrom : r.receivedFrom = .selfOrigin
  originMechanism : r.originMechanism = .learned
  standard : ∀ c, .standard c ∈ r.communities.toList → ∀ a ∈ d.standardCommunities.parts,
    a.accepts (ofCommunity c) = true → a.IsLeast (Utf8.bytes (ofCommunity c))
  other : ∀ c ∈ r.communities.toList, c.isStandard = false → c ∈ d.otherCommunities
  single : ∀ hop ∈ r.asPath.hops, hop.isSingle = true
  asPath : ∀ a ∈ d.asPaths.parts, a.accepts (asPathText r.asPath) = true →
    a.IsLeast (Utf8.bytes (asPathText r.asPath))
  nextHopInterface : ∀ n ∈ r.nextHop.interface?, n ∈ d.nextHopInterfaces
  sourceVrf : ∀ n ∈ e.sourceVrf, n ∈ d.sourceVrfs
  tracks : e.successfulTracks.Sublist d.tracks

/-! ### Both directions -/

section
variable {d : Domain} {s : Store} {l : Layout} {m : Ref} {p : Assignment} {r : Route}
  {e : Environment}

/-- **What is decoded encodes again** to the filling of the cube, up to the host bits of the
prefix. The environment may be decoded in another store than the route. -/
theorem encodes_of_decode (hd : d.Valid) (hwf : Layout.WellFormed d p.fill) (hs : s.Valid)
    (hl : l.Over d s) (hm : s.IsCube m p) (hr : routeOver s m l d = .ok r) {t : Store} {k : Layout}
    (ht : t.Valid) (hk : k.Over d t) (hmt : t.IsCube m p) (he : environmentOver t m k d = .ok e) :
    ∃ n : Network, r.network = n.truncate ∧ Encodes d { r with network := n } e p.fill ∧
      r.clusterList.size ≤ 255 ∧ ∀ hop ∈ r.asPath.hops, hop.isSingle = true := by
  obtain ⟨protocol, hprotocol⟩ := hwf.exists_protocol
  obtain ⟨originType, horigin⟩ := hwf.exists_originType
  obtain ⟨h, hnext, haddress, hinterface, -⟩ := nextHop_eq hs hl hm hd hwf.nextHopInterface
  obtain ⟨vrf, henv, hvrf, -⟩ := environmentOver_eq ht hk hmt hd hwf.sourceVrf
  obtain ⟨i, a, hpick, hpathIff⟩ := asPath_eq_ok_iff hd hs hl hm hwf.asPath
  obtain ⟨cs, path, hcs, hpath, rfl⟩ :=
    (routeOver_eq_ok_iff hs hl hm hwf.length_le hprotocol horigin hnext).1 hr
  obtain ⟨ds, hds, hset⟩ := (communities_eq_ok_iff hd hs hl hm).1 hcs
  obtain rfl := Except.ok.inj (henv.symm.trans he)
  have hle := value_clusterListLength_le p.fill
  have hclusters := size_clusterList hle
  have hrepresents := (hpathIff path).1 hpath
  refine ⟨networkOf p.fill hwf.length_le, rfl, ?_, Nat.le_trans (Nat.le_of_eq hclusters) hle, ?_⟩
  swap
  · obtain ⟨ns, rfl, -⟩ := hrepresents
    intro hop hhop
    obtain ⟨n, -, rfl⟩ := List.mem_map.1 hhop
    rfl
  exact {
    protocol := hprotocol
    address := (ofNat_word32 p.fill addressStart).symm
    length := (ofNat_block p.fill lengthStart lengthWidth).symm
    localPreference := (ofNat_word32 p.fill localPreferenceStart).symm
    adminDistance := (ofNat_word32 p.fill adminDistanceStart).symm
    metric := (ofNat_word32 p.fill metricStart).symm
    tag := (ofNat_word32 p.fill tagStart).symm
    nextHop := by
      have hword := ofNat_word32 p.fill nextHopStart
      rw [routeOf, haddress]
      exact hword.symm
    clusterListLength := by
      rw [routeOf, hclusters, ofNat_block]
    originType := horigin
    communities := (communityFlags_of_decode hd (length_block ..) hds hset).symm
    asPaths := (asPathFlags_of_decode hd (length_block ..) hpick hrepresents).symm
    tracks := (map_contains_pick hd.tracks_nodup (length_block ..)).symm
    sourceVrfs := hvrf.symm
    nextHopInterfaces := hinterface.symm }

/-- **A well-formed model is decoded** exactly if all classes that hold can be read. -/
theorem exists_routeOver_iff (hd : d.Valid) (hwf : Layout.WellFormed d p.fill) (hs : s.Valid)
    (hl : l.Over d s) (hm : s.IsCube m p) :
    (∃ r, routeOver s m l d = .ok r) ↔ d.ReadableAt p.fill := by
  obtain ⟨protocol, hprotocol⟩ := hwf.exists_protocol
  obtain ⟨originType, horigin⟩ := hwf.exists_originType
  obtain ⟨h, hnext, -⟩ := nextHop_eq hs hl hm hd hwf.nextHopInterface
  have hroute := fun {r} =>
    routeOver_eq_ok_iff hs hl hm hwf.length_le hprotocol horigin hnext (r := r)
  constructor
  · rintro ⟨r, hr⟩
    obtain ⟨cs, path, hcs, hpath, -⟩ := hroute.1 hr
    exact ⟨(exists_communities_iff hd hs hl hm).1 ⟨cs, hcs⟩,
      (exists_asPath_iff hd hs hl hm hwf.asPath).1 ⟨path, hpath⟩⟩
  · intro hread
    obtain ⟨cs, hcs⟩ := (exists_communities_iff hd hs hl hm).2 hread.communities
    obtain ⟨path, hpath⟩ := (exists_asPath_iff hd hs hl hm hwf.asPath).2 hread.asPaths
    exact ⟨_, hroute.2 ⟨cs, path, hcs, hpath, rfl⟩⟩

theorem exists_environmentOver (hd : d.Valid) (hwf : Layout.WellFormed d p.fill) (hs : s.Valid)
    (hl : l.Over d s) (hm : s.IsCube m p) : ∃ e, environmentOver s m l d = .ok e := by
  obtain ⟨vrf, he, -⟩ := environmentOver_eq hs hl hm hd hwf.sourceVrf
  exact ⟨_, he⟩

/-- **A representable route is decoded** from its encoding. -/
theorem decode_of_encodes (hd : d.Valid) (hs : s.Valid) (hl : l.Over d s) (hm : s.IsCube m p)
    (henc : Encodes d r e p.fill) (hrep : Representable d r e) :
    routeOver s m l d = .ok r ∧ environmentOver s m l d = .ok e := by
  have hwf := henc.wellFormed hd hrep.single
  obtain ⟨h, hnext, haddress, hinterface, hknown⟩ := nextHop_eq hs hl hm hd hwf.nextHopInterface
  obtain ⟨vrf, henv, hvrf, hvrfKnown⟩ := environmentOver_eq hs hl hm hd hwf.sourceVrf
  obtain ⟨i, a, hpick, hpathIff⟩ := asPath_eq_ok_iff hd hs hl hm hwf.asPath
  constructor
  · have hcs : communities s m l d = .ok r.communities :=
      (communities_eq_ok_iff hd hs hl hm).2
        (communities_of_flags hd hrep.standard hrep.other henc.communities)
    have hpath : asPath s m l d = .ok r.asPath := by
      rw [hpathIff]
      rw [henc.asPaths] at hpick
      exact asPath_of_flags hrep.single hrep.asPath hpick
    rw [routeOver_eq_ok_iff hs hl hm hwf.length_le henc.protocol henc.originType hnext]
    refine ⟨_, _, hcs, hpath, ?_⟩
    have hnetwork : networkOf p.fill hwf.length_le = r.network := by
      simp only [networkOf, henc.value_address, henc.value_length, Address.ofNat_toNat]
    have hclusters :
        clusterList (Bits.value (block p.fill clusterListStart clusterListWidth)) =
          r.clusterList := by
      obtain ⟨n, hn, hr⟩ := hrep.clusterList
      rw [henc.clusterListLength, hr, size_clusterList hn,
        Bits.value_ofNat (Nat.lt_succ_of_le hn)]
    have hhop : h = r.nextHop := by
      refine NextHop.ext_parts ?_ (nameFlags_injective hknown hrep.nextHopInterface
        (hinterface.trans henc.nextHopInterfaces))
      rw [haddress, henc.value_nextHop, Address.ofNat_toNat]
    rw [routeOf, hnetwork, hrep.network, word32_of_block henc.localPreference,
      word32_of_block henc.adminDistance, word32_of_block henc.metric, word32_of_block henc.tag,
      hclusters, hhop, ← hrep.originatorIp, ← hrep.receivedFrom, ← hrep.originMechanism]
  · have htracks : (pick 0 d.tracks (block p.fill d.trackStart d.tracks.length)).map (·.2) =
        e.successfulTracks := by
      rw [henc.tracks, trackFlags, map_pick,
        ← filter_mem_of_sublist hrep.tracks hd.tracks_nodup]
      refine List.filter_congr fun t _ => ?_
      rw [Environment.trackSucceeds, List.contains_eq_mem]
    have hv : vrf = e.sourceVrf :=
      nameFlags_injective hvrfKnown hrep.sourceVrf (hvrf.trans henc.sourceVrfs)
    rw [henv, htracks, hv]

end

/-! ### The decoders lay the domain out themselves -/

theorem yields_route (m : Ref) (d : Domain) {s : Store} :
    Yields s (route m d) fun x t => ∃ l : Layout, l.Over d t ∧ x = routeOver t m l d :=
  (Layout.yields_ofDomain d).bind fun l _ _ _ hl => .get fun _ => .pure fun _ => ⟨l, hl, rfl⟩

theorem yields_environment (m : Ref) (d : Domain) {s : Store} :
    Yields s (environment m d) fun x t => ∃ l : Layout, l.Over d t ∧ x = environmentOver t m l d :=
  (Layout.yields_ofDomain d).bind fun l _ _ _ hl => .get fun _ => .pure fun _ => ⟨l, hl, rfl⟩

end Decoding
end RouteSolver
