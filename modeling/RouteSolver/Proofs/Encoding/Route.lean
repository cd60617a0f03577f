/-
# The encoding of a concrete route

A concrete route and its environment give every variable of a layout a value (`encode`). The
encoding is put together from one block for each field: `Encodes` says that the blocks of a
valuation are those of a route, and `encodes_iff` that this fixes all variables of the layout, so no
two fields share one. The encoding is well formed when the AS path has single numbers only and the
domain is in order (`Encodes.wellFormed`).
-/

import RouteSolver.Proofs.Domain.Names
import RouteSolver.Proofs.Encoding.Layout
import Mathlib.Data.List.GetD

namespace RouteSolver

open Diagram Delimited
open Layout (protocolStart addressStart lengthStart lengthWidth localPreferenceStart
  adminDistanceStart metricStart tagStart nextHopStart clusterListStart clusterListWidth
  originTypeStart)

/-! ### Blocks -/

/-- Consecutive blocks of a valuation. -/
def cuts (v : Valuation) : Nat → List Nat → List (List Bool)
  | _, [] => []
  | first, n :: ns => block v first n :: cuts v (first + n) ns

theorem block_add (v : Valuation) (first m n : Nat) :
    block v first (m + n) = block v first m ++ block v (first + m) n := by
  rw [block, block, block, ← List.map_append, List.range'_append_1]

theorem flatten_cuts (v : Valuation) (first : Nat) (ns : List Nat) :
    (cuts v first ns).flatten = block v first ns.sum := by
  induction ns generalizing first with
  | nil => rfl
  | cons n ns ih => rw [cuts, List.flatten_cons, ih, List.sum_cons, block_add]

theorem length_cuts (v : Valuation) (first : Nat) (ns : List Nat) :
    (cuts v first ns).map List.length = ns := by
  induction ns generalizing first with
  | nil => rfl
  | cons n ns ih => rw [cuts, List.map_cons, length_block, ih]

/-- Blocks of the right lengths are those of a valuation if they are its values in a row. -/
theorem cuts_eq_iff {v : Valuation} {bs : List (List Bool)} :
    cuts v 0 (bs.map List.length) = bs ↔
      ∀ i, i < bs.flatten.length → v i = bs.flatten.getD i false := by
  have hflat := flatten_cuts v 0 (bs.map List.length)
  rw [← List.length_flatten] at hflat
  have hcuts : cuts v 0 (bs.map List.length) = bs ↔ block v 0 bs.flatten.length = bs.flatten := by
    constructor
    · intro h
      rw [← hflat, h]
    · intro h
      exact List.eq_iff_flatten_eq.2 ⟨hflat.trans h, length_cuts _ _ _⟩
  rw [hcuts, List.ext_getElem?_iff]
  refine forall_congr' fun i => ?_
  rcases Nat.lt_or_ge i bs.flatten.length with hi | hi
  · rw [getElem?_block _ _ hi, List.getElem?_eq_getElem hi, Nat.zero_add, Option.some.injEq,
      List.getD_eq_getElem _ _ hi]
    exact ⟨fun h _ => h, fun h => h hi⟩
  · have hi' : (block v 0 bs.flatten.length).length ≤ i := by rwa [length_block]
    rw [List.getElem?_eq_none hi, List.getElem?_eq_none hi']
    exact ⟨fun _ h => absurd h (Nat.not_lt.2 hi), fun _ => rfl⟩

/-- Cut into the fields of a route, a valuation has a block where each field begins. -/
theorem cuts_widths (d : Domain) (v : Valuation) : cuts v 0 (Layout.widths d) =
    [block v protocolStart Protocol.all.length,
      block v addressStart 32,
      block v lengthStart lengthWidth,
      block v localPreferenceStart 32,
      block v adminDistanceStart 32,
      block v metricStart 32,
      block v tagStart 32,
      block v nextHopStart 32,
      block v clusterListStart clusterListWidth,
      block v originTypeStart OriginType.all.length,
      block v Layout.listStart d.communityCount,
      block v d.asPathStart d.asPaths.size,
      block v d.trackStart d.tracks.length,
      block v d.sourceVrfStart d.sourceVrfs.length,
      block v d.nextHopInterfaceStart d.nextHopInterfaces.length] := rfl

/-! ### The encoding -/

section
variable (d : Domain) (r : Route) (e : Environment)

/-- Which classes of communities a set has a member of, and which of the other communities it
has. -/
def communityFlags (cs : AscendingSet Community) : List Bool :=
  (d.standardCommunities.parts.map fun a => cs.toList.any fun c => a.accepts (communityText c)) ++
    d.otherCommunities.map fun c => decide (c ∈ cs.toList)

/-- Which classes an AS path belongs to. -/
def asPathFlags (p : AsPath) : List Bool := d.asPaths.parts.map fun a => a.accepts (asPathText p)

/-- Which of some names is the one that is given. -/
def nameFlags (names : List String) (name : Option String) : List Bool :=
  names.map fun n => decide (name = some n)

/-- Which tracks succeed. -/
def trackFlags : List Bool := d.tracks.map e.trackSucceeds

/-- The bits of all fields. -/
def blocks : List (List Bool) :=
  [oneHot Protocol.all r.protocol,
    Bits.ofNat 32 r.network.address.toNat,
    Bits.ofNat lengthWidth r.network.length,
    Bits.ofNat 32 r.localPreference.toNat,
    Bits.ofNat 32 r.adminDistance.toNat,
    Bits.ofNat 32 r.metric.toNat,
    Bits.ofNat 32 r.tag.toNat,
    Bits.ofNat 32 r.nextHop.address.toNat,
    Bits.ofNat clusterListWidth r.clusterList.size,
    oneHot OriginType.all r.originType,
    communityFlags d r.communities,
    asPathFlags d r.asPath,
    trackFlags d e,
    nameFlags d.sourceVrfs e.sourceVrf,
    nameFlags d.nextHopInterfaces r.nextHop.interface?]

/-- The valuation that a route and an environment stand for. -/
def encode : Valuation := fun i => (blocks d r e).flatten.getD i false

/-- The blocks of a valuation are those of a route and an environment. -/
structure Encodes (v : Valuation) : Prop where
  protocol : block v protocolStart Protocol.all.length = oneHot Protocol.all r.protocol
  address : block v addressStart 32 = Bits.ofNat 32 r.network.address.toNat
  length : block v lengthStart lengthWidth = Bits.ofNat lengthWidth r.network.length
  localPreference : block v localPreferenceStart 32 = Bits.ofNat 32 r.localPreference.toNat
  adminDistance : block v adminDistanceStart 32 = Bits.ofNat 32 r.adminDistance.toNat
  metric : block v metricStart 32 = Bits.ofNat 32 r.metric.toNat
  tag : block v tagStart 32 = Bits.ofNat 32 r.tag.toNat
  nextHop : block v nextHopStart 32 = Bits.ofNat 32 r.nextHop.address.toNat
  clusterListLength :
    block v clusterListStart clusterListWidth = Bits.ofNat clusterListWidth r.clusterList.size
  originType : block v originTypeStart OriginType.all.length = oneHot OriginType.all r.originType
  communities : block v Layout.listStart d.communityCount = communityFlags d r.communities
  asPaths : block v d.asPathStart d.asPaths.size = asPathFlags d r.asPath
  tracks : block v d.trackStart d.tracks.length = trackFlags d e
  sourceVrfs : block v d.sourceVrfStart d.sourceVrfs.length = nameFlags d.sourceVrfs e.sourceVrf
  nextHopInterfaces : block v d.nextHopInterfaceStart d.nextHopInterfaces.length =
    nameFlags d.nextHopInterfaces r.nextHop.interface?

omit r e in
theorem length_communityFlags (cs : AscendingSet Community) :
    (communityFlags d cs).length = d.communityCount := by
  rw [communityFlags, List.length_append, List.length_map, List.length_map]
  rfl

omit r e in
theorem length_asPathFlags (p : AsPath) : (asPathFlags d p).length = d.asPaths.size :=
  List.length_map ..

theorem map_length_blocks : (blocks d r e).map List.length = Layout.widths d := by
  simp only [blocks, List.map_cons, List.map_nil, Bits.length_ofNat, length_oneHot,
    length_communityFlags, length_asPathFlags, trackFlags, nameFlags, List.length_map]
  rfl

theorem length_flatten_blocks : (blocks d r e).flatten.length = d.variableCount := by
  rw [List.length_flatten, map_length_blocks, Layout.sum_widths]

variable {d r e} {v : Valuation}

omit r e in
/-- The flag of a class. -/
theorem communityFlags_part {cs : AscendingSet Community} {i : Nat} {a : Automaton}
    (ha : d.standardCommunities.parts[i]? = some a) : (communityFlags d cs)[i]? = some true ↔
      ∃ c ∈ cs.toList, a.accepts (communityText c) = true := by
  have hi := (List.getElem?_eq_some_iff.1 ha).1
  rw [communityFlags, List.getElem?_append_left (by rwa [List.length_map]), List.getElem?_map, ha,
    Option.map_some, Option.some.injEq, List.any_eq_true]

omit r e in
/-- The flag of any other community. -/
theorem communityFlags_other {cs : AscendingSet Community} {j : Nat} {c : Community}
    (hj : d.otherCommunities[j]? = some c) :
    (communityFlags d cs)[d.standardCommunities.size + j]? = some true ↔ c ∈ cs.toList := by
  rw [communityFlags, Partition.size,
    List.getElem?_append_right (by rw [List.length_map]; exact Nat.le_add_right _ _),
    List.length_map, Nat.add_sub_cancel_left, List.getElem?_map, hj, Option.map_some,
    Option.some.injEq, decide_eq_true_iff]

omit r e in
theorem asPathFlags_part {p : AsPath} {i : Nat} {a : Automaton}
    (ha : d.asPaths.parts[i]? = some a) :
    (asPathFlags d p)[i]? = some true ↔ a.accepts (asPathText p) = true := by
  rw [asPathFlags, List.getElem?_map, ha, Option.map_some, Option.some.injEq]

/-- **The encoding fixes every variable** of the layout. -/
theorem encodes_iff : Encodes d r e v ↔ ∀ i, i < d.variableCount → v i = encode d r e i := by
  rw [← length_flatten_blocks d r e]
  refine Iff.trans ?_ cuts_eq_iff
  rw [map_length_blocks, cuts_widths, blocks]
  simp only [List.cons.injEq, and_true]
  constructor
  · exact fun h => ⟨h.protocol, h.address, h.length, h.localPreference, h.adminDistance, h.metric,
      h.tag, h.nextHop, h.clusterListLength, h.originType, h.communities, h.asPaths, h.tracks,
      h.sourceVrfs, h.nextHopInterfaces⟩
  · rintro ⟨h1, h2, h3, h4, h5, h6, h7, h8, h9, h10, h11, h12, h13, h14, h15⟩
    exact ⟨h1, h2, h3, h4, h5, h6, h7, h8, h9, h10, h11, h12, h13, h14, h15⟩

theorem encodes_encode (d : Domain) (r : Route) (e : Environment) : Encodes d r e (encode d r e) :=
  encodes_iff.2 fun _ _ => rfl

namespace Encodes

variable (h : Encodes d r e v)
include h

theorem value_address : Bits.value (block v addressStart 32) = r.network.address.toNat :=
  h.address ▸ Bits.value_ofNat r.network.address.bits.toNat_lt

theorem value_length : Bits.value (block v lengthStart lengthWidth) = r.network.length := by
  have hlt : r.network.length < 2 ^ lengthWidth :=
    Nat.lt_of_le_of_lt r.network.length_le (by decide)
  rw [h.length, Bits.value_ofNat hlt]

theorem value_nextHop : Bits.value (block v nextHopStart 32) = r.nextHop.address.toNat :=
  h.nextHop ▸ Bits.value_ofNat r.nextHop.address.bits.toNat_lt

end Encodes

end

/-! ### Well-formedness -/

theorem count_nameFlags_le {names : List String} (h : names.Nodup) (name : Option String) :
    (nameFlags names name).count true ≤ 1 := by
  rw [nameFlags, count_map_true]
  refine countP_le_one (h.imp fun {a b} hab ha => ?_)
  rw [decide_eq_true_iff] at ha
  exact decide_eq_false fun hb => hab (Option.some.inj (ha.symm.trans hb))

/-- **The encoding of a route** with single AS numbers is well formed. -/
theorem Encodes.wellFormed {d : Domain} {r : Route} {e : Environment} {v : Valuation}
    (h : Encodes d r e v) (hd : d.Valid) (hr : ∀ hop ∈ r.asPath.hops, hop.isSingle = true) :
    Layout.WellFormed d v where
  length_le := by
    rw [h.value_length]
    exact r.network.length_le
  protocol := h.protocol ▸ count_oneHot_eq_one (by decide) r.protocol.mem_all
  originType := h.originType ▸ count_oneHot_eq_one (by decide) r.originType.mem_all
  asPath := by
    obtain ⟨ns, hns⟩ := AsPath.exists_ofNumbers_eq hr
    rw [h.asPaths, asPathFlags, hns]
    exact hd.asPaths.count_eq_one (accepts_asPathText ns)
  nextHopInterface := h.nextHopInterfaces ▸ count_nameFlags_le hd.nextHopInterfaces_nodup _
  sourceVrf := h.sourceVrfs ▸ count_nameFlags_le hd.sourceVrfs_nodup _

end RouteSolver
