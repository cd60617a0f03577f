/-
# A layout is faithful

What a symbolic route ranges over is one value for each of its fields, chosen independently
(`FieldValues`). Read through the diagrams of a layout, a valuation has such values or has not
(`Layout.Reads`), and this fixes all variables of the route (`Layout.Over.reads_iff`). The
valuations that have values are exactly the well-formed ones (`Layout.Over.exists_reads_iff`), so
well-formed valuations and field values correspond one to one (`Layout.ofDomain_faithful`).
-/

import RouteSolver.Proofs.Encoding.Again
import RouteSolver.Proofs.Encoding.Route
import RouteSolver.Proofs.Witness.Nameless
import RouteSolver.Proofs.Witness.Selection
import Mathlib.Data.Finset.Basic
import Mathlib.Data.Fintype.Basic

namespace RouteSolver

open Diagram
open Layout (lengthWidth clusterListWidth)

/-! ### Flags of positions -/

/-- For each position, whether it is meant. -/
def flagsOf {n : Nat} (p : Fin n → Prop) [DecidablePred p] : List Bool :=
  (List.finRange n).map fun i => decide (p i)

section
variable {n : Nat} {p q : Fin n → Prop} [DecidablePred p] [DecidablePred q]

theorem length_flagsOf (p : Fin n → Prop) [DecidablePred p] : (flagsOf p).length = n := by
  rw [flagsOf, List.length_map, List.length_finRange]

theorem flagsOf_inj : flagsOf p = flagsOf q ↔ ∀ i, p i ↔ q i := by
  rw [flagsOf, flagsOf, List.map_inj_left]
  exact ⟨fun h i => decide_eq_decide.1 (h i (List.mem_finRange i)),
    fun h i _ => decide_eq_decide.2 (h i)⟩

/-- Any bits are the flags of some positions. -/
theorem exists_eq_flagsOf {bs : List Bool} (h : bs.length = n) :
    ∃ s : Finset (Fin n), bs = flagsOf (· ∈ s) := by
  refine ⟨Finset.univ.filter fun i => bs[i]? = some true, ?_⟩
  refine List.ext_getElem (by rw [h, length_flagsOf]) fun i hi hi' => ?_
  simp [flagsOf, List.getElem?_eq_getElem hi]

/-- A single true bit is the flag of one position. -/
theorem exists_eq_flagsOf_eq {bs : List Bool} (h : bs.length = n) (hcount : bs.count true = 1) :
    ∃ i : Fin n, bs = flagsOf (· = i) := by
  obtain ⟨i, -, hi⟩ := exists_eq_oneHot (List.nodup_finRange n)
    (h.trans (List.length_finRange).symm) hcount
  exact ⟨i, hi⟩

/-- At most one true bit is the flag of one position, or of none. -/
theorem exists_eq_flagsOf_some {bs : List Bool} (h : bs.length = n) (hcount : bs.count true ≤ 1) :
    ∃ o : Option (Fin n), bs = flagsOf fun i => o = some i := by
  rcases Nat.le_one_iff_eq_zero_or_eq_one.1 hcount with hzero | hone
  · refine ⟨none, List.ext_getElem (by rw [h, length_flagsOf]) fun i hi hi' => ?_⟩
    rw [List.count_eq_zero] at hzero
    have hb : bs[i] = false := Bool.eq_false_iff.2 fun hb => hzero (hb ▸ List.getElem_mem hi)
    simp [hb, flagsOf]
  · obtain ⟨i, hi⟩ := exists_eq_flagsOf_eq h hone
    refine ⟨some i, hi.trans (flagsOf_inj.2 fun j => ?_)⟩
    rw [Option.some.injEq, eq_comm]

theorem count_flagsOf_eq (i : Fin n) : (flagsOf (· = i)).count true = 1 :=
  count_oneHot_eq_one (List.nodup_finRange n) (List.mem_finRange i)

theorem count_flagsOf_some (o : Option (Fin n)) : (flagsOf fun i => o = some i).count true ≤ 1 := by
  rw [flagsOf, count_map_true]
  refine countP_le_one ((List.nodup_finRange n).imp fun {a b} hab ha => ?_)
  rw [decide_eq_true_iff] at ha
  exact decide_eq_false fun hb => hab (Option.some.inj (ha.symm.trans hb))

end

/-! ### Values of the fields -/

/-- One value for each field of a route over a domain. Communities and tracks are any set of what
the domain has, and there is at most one source VRF and one next-hop interface. -/
@[ext]
structure FieldValues (d : Domain) where
  protocol : Protocol
  address : UInt32
  /-- The length of the prefix, from 0 to 32. -/
  length : Fin 33
  localPreference : UInt32
  adminDistance : UInt32
  metric : UInt32
  tag : UInt32
  nextHop : UInt32
  clusterListLength : UInt8
  originType : OriginType
  communities : Finset (Fin d.communityCount)
  asPath : Fin d.asPaths.size
  tracks : Finset (Fin d.tracks.length)
  sourceVrf : Option (Fin d.sourceVrfs.length)
  nextHopInterface : Option (Fin d.nextHopInterfaces.length)

namespace FieldValues

variable {d : Domain}

/-- The bits of all fields. -/
def blocks (x : FieldValues d) : List (List Bool) :=
  [oneHot Protocol.all x.protocol,
    Bits.ofNat 32 x.address.toNat,
    Bits.ofNat lengthWidth x.length,
    Bits.ofNat 32 x.localPreference.toNat,
    Bits.ofNat 32 x.adminDistance.toNat,
    Bits.ofNat 32 x.metric.toNat,
    Bits.ofNat 32 x.tag.toNat,
    Bits.ofNat 32 x.nextHop.toNat,
    Bits.ofNat clusterListWidth x.clusterListLength.toNat,
    oneHot OriginType.all x.originType,
    flagsOf (· ∈ x.communities),
    flagsOf (· = x.asPath),
    flagsOf (· ∈ x.tracks),
    flagsOf fun i => x.sourceVrf = some i,
    flagsOf fun i => x.nextHopInterface = some i]

theorem map_length_blocks (x : FieldValues d) : x.blocks.map List.length = Layout.widths d := by
  simp only [blocks, Layout.widths, List.map_cons, List.map_nil, Bits.length_ofNat, length_oneHot,
    length_flagsOf]

theorem length_flatten_blocks (x : FieldValues d) :
    x.blocks.flatten.length = d.variableCount := by
  rw [List.length_flatten, x.map_length_blocks, Layout.sum_widths]

/-- The valuation of these values, false where the route has no variable. -/
def valuation (x : FieldValues d) : Valuation := fun i => x.blocks.flatten.getD i false

end FieldValues

/-! ### Reading a valuation -/

namespace Diagram

/-- The values of some diagrams. -/
def Store.evalAll (s : Store) (xs : List Ref) (v : Valuation) : List Bool := xs.map (s.eval · v)

theorem Store.LaysOut.evalAll_eq {s : Store} {xs : List Ref} {first count : Nat}
    (h : s.LaysOut xs first count) (v : Valuation) : s.evalAll xs v = block v first count := by
  refine List.ext_getElem (by rw [evalAll, List.length_map, h.length_eq, length_block]) ?_
  intro i hi hi'
  rw [evalAll, List.length_map] at hi
  have hblock := getElem?_block v first ((length_block ..) ▸ hi')
  rw [List.getElem?_eq_getElem hi', Option.some.injEq] at hblock
  rw [hblock]
  simp only [evalAll, List.getElem_map, (h.denotes (List.getElem?_eq_getElem hi)).eval_eq]

/-- The number that diagrams of consecutive variables make up settles the bits of their block. -/
theorem Store.LaysOut.value_evalAll_eq_iff {s : Store} {xs : List Ref} {first width : Nat}
    (h : s.LaysOut xs first width) (v : Valuation) {n : Nat} (hn : n < 2 ^ width) :
    Bits.value (s.evalAll xs v) = n ↔ block v first width = Bits.ofNat width n := by
  rw [h.evalAll_eq]
  constructor
  · rintro rfl
    have hbits := Bits.ofNat_value (block v first width)
    rwa [length_block, eq_comm] at hbits
  · intro heq
    rw [heq, Bits.value_ofNat hn]

theorem Store.LaysOut.value_evalAll_lt {s : Store} {xs : List Ref} {first width : Nat}
    (h : s.LaysOut xs first width) (v : Valuation) : Bits.value (s.evalAll xs v) < 2 ^ width := by
  have hlt := Bits.value_lt (block v first width)
  rwa [length_block, ← h.evalAll_eq] at hlt

/-- A valuation of the first variables, false for all others. -/
def Valuation.extend {n : Nat} (v : Fin n → Bool) : Valuation :=
  fun i => if h : i < n then v ⟨i, h⟩ else false

theorem Valuation.extend_of_lt {n : Nat} (v : Fin n → Bool) {i : Nat} (h : i < n) :
    extend v i = v ⟨i, h⟩ := dif_pos h

end Diagram

namespace Layout

variable {d : Domain} {l : Layout} {s : Store} {v w : Valuation} {x y : FieldValues d}

/-- Read through the diagrams of a layout, the valuation has these values. -/
structure Reads (l : Layout) (s : Store) (v : Valuation) (x : FieldValues d) : Prop where
  protocol : s.evalAll l.protocol.selectors v = oneHot l.protocol.alternatives x.protocol
  address : Bits.value (s.evalAll l.address.bits v) = x.address.toNat
  length : Bits.value (s.evalAll l.length.bits v) = x.length
  localPreference : Bits.value (s.evalAll l.localPreference.bits v) = x.localPreference.toNat
  adminDistance : Bits.value (s.evalAll l.adminDistance.bits v) = x.adminDistance.toNat
  metric : Bits.value (s.evalAll l.metric.bits v) = x.metric.toNat
  tag : Bits.value (s.evalAll l.tag.bits v) = x.tag.toNat
  nextHop : Bits.value (s.evalAll l.nextHop.bits v) = x.nextHop.toNat
  clusterListLength : Bits.value (s.evalAll l.clusterListLength.bits v) = x.clusterListLength.toNat
  originType : s.evalAll l.originType.selectors v = oneHot l.originType.alternatives x.originType
  communities : s.evalAll l.communities v = flagsOf (· ∈ x.communities)
  asPath : s.evalAll l.asPaths v = flagsOf (· = x.asPath)
  tracks : s.evalAll l.tracks v = flagsOf (· ∈ x.tracks)
  sourceVrf : s.evalAll l.sourceVrfs v = flagsOf fun i => x.sourceVrf = some i
  nextHopInterface :
    s.evalAll l.nextHopInterfaces v = flagsOf fun i => x.nextHopInterface = some i

/-- **The values fix every variable** of the route. -/
theorem Over.reads_iff (h : l.Over d s) :
    l.Reads s v x ↔ ∀ i, i < d.variableCount → v i = x.valuation i := by
  have hlength : x.length.val < 2 ^ lengthWidth := Nat.lt_of_lt_of_le x.length.isLt (by decide)
  rw [← x.length_flatten_blocks]
  refine Iff.trans ?_ cuts_eq_iff
  rw [x.map_length_blocks, cuts_widths, FieldValues.blocks]
  simp only [List.cons.injEq, and_true]
  -- field by field, the value is settled by the block and settles it
  rw [← h.address.value_evalAll_eq_iff v x.address.toNat_lt,
    ← h.length.value_evalAll_eq_iff v hlength,
    ← h.localPreference.value_evalAll_eq_iff v x.localPreference.toNat_lt,
    ← h.adminDistance.value_evalAll_eq_iff v x.adminDistance.toNat_lt,
    ← h.metric.value_evalAll_eq_iff v x.metric.toNat_lt,
    ← h.tag.value_evalAll_eq_iff v x.tag.toNat_lt,
    ← h.nextHop.value_evalAll_eq_iff v x.nextHop.toNat_lt,
    ← h.clusterListLength.value_evalAll_eq_iff v x.clusterListLength.toNat_lt,
    ← h.protocol.evalAll_eq v, ← h.protocol_alternatives, ← h.originType.evalAll_eq v,
    ← h.originType_alternatives]
  constructor
  · intro hx
    exact ⟨hx.protocol, hx.address, hx.length, hx.localPreference, hx.adminDistance, hx.metric,
      hx.tag, hx.nextHop, hx.clusterListLength, hx.originType,
      h.communities.evalAll_eq v ▸ hx.communities, h.asPaths.evalAll_eq v ▸ hx.asPath,
      h.tracks.evalAll_eq v ▸ hx.tracks, h.sourceVrfs.evalAll_eq v ▸ hx.sourceVrf,
      h.nextHopInterfaces.evalAll_eq v ▸ hx.nextHopInterface⟩
  · rintro ⟨hprotocol, haddress, hlength, hlocal, hdistance, hmetric, htag, hhop, hclusters,
      horiginType, hcommunities, hpath, htracks, hvrf, hinterface⟩
    exact ⟨hprotocol, haddress, hlength, hlocal, hdistance, hmetric, htag, hhop, hclusters,
      horiginType, (h.communities.evalAll_eq v).trans hcommunities,
      (h.asPaths.evalAll_eq v).trans hpath, (h.tracks.evalAll_eq v).trans htracks,
      (h.sourceVrfs.evalAll_eq v).trans hvrf,
      (h.nextHopInterfaces.evalAll_eq v).trans hinterface⟩

/-- A valuation has the values of its own bits at most. -/
theorem Reads.unique (h : l.Over d s) (hx : l.Reads s v x) (hy : l.Reads s v y) : x = y := by
  have hprotocol := hx.protocol.symm.trans hy.protocol
  have horiginType := hx.originType.symm.trans hy.originType
  rw [oneHot_inj (h.protocol_alternatives ▸ y.protocol.mem_all)] at hprotocol
  rw [oneHot_inj (h.originType_alternatives ▸ y.originType.mem_all)] at horiginType
  have hasPath := flagsOf_inj.1 (hx.asPath.symm.trans hy.asPath) x.asPath
  have hoption : ∀ {n : Nat} {o o' : Option (Fin n)},
      flagsOf (fun i => o = some i) = flagsOf (fun i => o' = some i) → o = o' := fun heq =>
    Option.ext fun i => flagsOf_inj.1 heq i
  exact FieldValues.ext hprotocol (UInt32.toNat_inj.1 (hx.address.symm.trans hy.address))
    (Fin.ext (hx.length.symm.trans hy.length))
    (UInt32.toNat_inj.1 (hx.localPreference.symm.trans hy.localPreference))
    (UInt32.toNat_inj.1 (hx.adminDistance.symm.trans hy.adminDistance))
    (UInt32.toNat_inj.1 (hx.metric.symm.trans hy.metric))
    (UInt32.toNat_inj.1 (hx.tag.symm.trans hy.tag))
    (UInt32.toNat_inj.1 (hx.nextHop.symm.trans hy.nextHop))
    (UInt8.toNat_inj.1 (hx.clusterListLength.symm.trans hy.clusterListLength)) horiginType
    (Finset.ext (flagsOf_inj.1 (hx.communities.symm.trans hy.communities))) (hasPath.1 rfl)
    (Finset.ext (flagsOf_inj.1 (hx.tracks.symm.trans hy.tracks)))
    (hoption (hx.sourceVrf.symm.trans hy.sourceVrf))
    (hoption (hx.nextHopInterface.symm.trans hy.nextHopInterface))

/-- A valuation that has values is well-formed. -/
theorem Reads.wellFormed (h : l.Over d s) (hx : l.Reads s v x) : WellFormed d v where
  length_le := by
    rw [← h.length.evalAll_eq, hx.length]
    exact Nat.le_of_lt_succ x.length.isLt
  protocol := by
    rw [← h.protocol.evalAll_eq, hx.protocol, h.protocol_alternatives]
    exact count_oneHot_eq_one (by decide) x.protocol.mem_all
  originType := by
    rw [← h.originType.evalAll_eq, hx.originType, h.originType_alternatives]
    exact count_oneHot_eq_one (by decide) x.originType.mem_all
  asPath := by
    rw [← h.asPaths.evalAll_eq, hx.asPath]
    exact count_flagsOf_eq _
  nextHopInterface := by
    rw [← h.nextHopInterfaces.evalAll_eq, hx.nextHopInterface]
    exact count_flagsOf_some _
  sourceVrf := by
    rw [← h.sourceVrfs.evalAll_eq, hx.sourceVrf]
    exact count_flagsOf_some _

/-- A well-formed valuation has values. The choices, flags and options are those of its blocks,
and any number of 32 or of 8 bits is one of the fields' values. -/
theorem WellFormed.exists_reads (hwf : WellFormed d v) (h : l.Over d s) :
    ∃ x : FieldValues d, l.Reads s v x := by
  obtain ⟨protocol, hprotocol⟩ := hwf.exists_protocol
  obtain ⟨originType, horiginType⟩ := hwf.exists_originType
  obtain ⟨communities, hcommunities⟩ :=
    exists_eq_flagsOf (length_block v listStart d.communityCount)
  obtain ⟨asPath, hasPath⟩ :=
    exists_eq_flagsOf_eq (length_block v d.asPathStart d.asPaths.size) hwf.asPath
  obtain ⟨tracks, htracks⟩ := exists_eq_flagsOf (length_block v d.trackStart d.tracks.length)
  obtain ⟨sourceVrf, hsourceVrf⟩ := exists_eq_flagsOf_some
    (length_block v d.sourceVrfStart d.sourceVrfs.length) hwf.sourceVrf
  obtain ⟨nextHopInterface, hnextHopInterface⟩ := exists_eq_flagsOf_some
    (length_block v d.nextHopInterfaceStart d.nextHopInterfaces.length) hwf.nextHopInterface
  have hlength : Bits.value (s.evalAll l.length.bits v) < 33 := by
    rw [h.length.evalAll_eq]
    exact Nat.lt_succ_of_le hwf.length_le
  have hword : ∀ {xs : List Ref} {first : Nat}, s.LaysOut xs first 32 →
      Bits.value (s.evalAll xs v) = (UInt32.ofNat (Bits.value (s.evalAll xs v))).toNat :=
    fun hxs => (UInt32.toNat_ofNat_of_lt' (hxs.value_evalAll_lt v)).symm
  exact ⟨{
    protocol := protocol
    address := UInt32.ofNat (Bits.value (s.evalAll l.address.bits v))
    length := ⟨Bits.value (s.evalAll l.length.bits v), hlength⟩
    localPreference := UInt32.ofNat (Bits.value (s.evalAll l.localPreference.bits v))
    adminDistance := UInt32.ofNat (Bits.value (s.evalAll l.adminDistance.bits v))
    metric := UInt32.ofNat (Bits.value (s.evalAll l.metric.bits v))
    tag := UInt32.ofNat (Bits.value (s.evalAll l.tag.bits v))
    nextHop := UInt32.ofNat (Bits.value (s.evalAll l.nextHop.bits v))
    clusterListLength := UInt8.ofNat (Bits.value (s.evalAll l.clusterListLength.bits v))
    originType := originType
    communities := communities
    asPath := asPath
    tracks := tracks
    sourceVrf := sourceVrf
    nextHopInterface := nextHopInterface }, {
      protocol := by rw [h.protocol.evalAll_eq, h.protocol_alternatives, hprotocol]
      address := hword h.address
      length := rfl
      localPreference := hword h.localPreference
      adminDistance := hword h.adminDistance
      metric := hword h.metric
      tag := hword h.tag
      nextHop := hword h.nextHop
      clusterListLength :=
        (UInt8.toNat_ofNat_of_lt' (h.clusterListLength.value_evalAll_lt v)).symm
      originType := by rw [h.originType.evalAll_eq, h.originType_alternatives, horiginType]
      communities := (h.communities.evalAll_eq v).trans hcommunities
      asPath := (h.asPaths.evalAll_eq v).trans hasPath
      tracks := (h.tracks.evalAll_eq v).trans htracks
      sourceVrf := (h.sourceVrfs.evalAll_eq v).trans hsourceVrf
      nextHopInterface := (h.nextHopInterfaces.evalAll_eq v).trans hnextHopInterface }⟩

/-- **The valuations that have values** are the well-formed ones. -/
theorem Over.exists_reads_iff (h : l.Over d s) :
    (∃ x : FieldValues d, l.Reads s v x) ↔ WellFormed d v :=
  ⟨fun ⟨_, hx⟩ => hx.wellFormed h, fun hv => hv.exists_reads h⟩

/-- Well-formed valuations of the variables of a route, each with its values. -/
theorem Over.exists_equiv (h : l.Over d s) {n : Nat} (hn : n = d.variableCount)
    {holds : Valuation → Bool} (hholds : ∀ v, holds v = true ↔ WellFormed d v) :
    ∃ e : {v : Fin n → Bool // holds (Valuation.extend v) = true} ≃ FieldValues d,
      ∀ v x, e v = x ↔ l.Reads s (Valuation.extend v.1) x := by
  have hread : ∀ v : {v : Fin n → Bool // holds (Valuation.extend v) = true},
      ∃ x : FieldValues d, l.Reads s (Valuation.extend v.1) x := fun v =>
    h.exists_reads_iff.2 ((hholds _).1 v.2)
  choose read hread using hread
  have hread_iff : ∀ v x, read v = x ↔ l.Reads s (Valuation.extend v.1) x := fun v x =>
    ⟨fun hx => hx ▸ hread v, fun hx => (hread v).unique h hx⟩
  have hinjective : Function.Injective read := by
    intro v w hvw
    have hv := h.reads_iff.1 (hread v)
    have hw := h.reads_iff.1 (hvw ▸ hread w)
    refine Subtype.ext (funext fun i => ?_)
    have hi : i.1 < d.variableCount := hn ▸ i.2
    rw [← Valuation.extend_of_lt v.1 i.2, ← Valuation.extend_of_lt w.1 i.2, hv _ hi, hw _ hi]
  have hsurjective : Function.Surjective read := by
    intro x
    -- the bits of the values, cut off after the last variable
    have hx : l.Reads s (Valuation.extend fun i : Fin n => x.valuation i) x :=
      h.reads_iff.2 fun i hi => Valuation.extend_of_lt _ (hn ▸ hi)
    exact ⟨⟨_, (hholds _).2 (h.exists_reads_iff.1 ⟨x, hx⟩)⟩, (hread_iff _ x).2 hx⟩
  exact ⟨Equiv.ofBijective read ⟨hinjective, hsurjective⟩, hread_iff⟩

/-- **A layout is faithful.** The fields in a row are the variables from 0 on, as many as the route
has. Laid out again in any later store, the domain gives the same layout, and the store stays as it
is. And read through the layout, the valuations of these variables that are well formed correspond
one to one to the values of the fields, of which every combination occurs. -/
theorem ofDomain_faithful {t : Store} (hs : s.Reachable) (hl : (ofDomain d).run s = (l, t)) :
    (l.fields.map List.length = widths d ∧ t.LaysOut l.fields.flatten 0 l.variableCount) ∧
    (∀ u, t ≤ u → u.Reachable → (ofDomain d).run u = (l, u)) ∧
    ∀ u, t ≤ u → u.Reachable → ∀ q u', l.wellFormed.run u = (q, u') →
      ∃ e : {v : Fin l.variableCount → Bool // u'.eval q (Valuation.extend v) = true} ≃
          FieldValues d,
        ∀ v x, e v = x ↔ l.Reads u' (Valuation.extend v.1) x := by
  obtain ⟨ht, -, hover⟩ := (yields_ofDomain d).of_run hs.valid hl
  have hmarked : ((ofDomain d).run s).1.Marked d := marked_ofDomain d s
  rw [hl] at hmarked
  have hcount : l.variableCount = d.variableCount := hmarked.variableCount_eq
  refine ⟨⟨hover.map_length_fields, hcount ▸ hover.laysOut_fields⟩,
    fun u htu hu => ofDomain_again hs.valid hl htu hu.valid, fun u htu hu q u' hq => ?_⟩
  have hover' := hover.mono ht htu
  obtain ⟨-, huu', f, hf, hiff⟩ := (yields_wellFormed hover').of_run hu.valid hq
  exact (hover'.mono hu.valid huu').exists_equiv hcount fun v => by rw [hf.eval_eq, hiff]

/-- After the domain without names but for one track has been laid out, a variable behind the route
is named. The domain is then laid out as before, and the well-formed valuations of its variables are
as many as the values of its fields. -/
theorem ofDomain_faithful_track :
    ∃ l t q u, (ofDomain { Domain.nameless with tracks := ["uplink"] }).run .empty = (l, t) ∧
      (ofDomain { Domain.nameless with tracks := ["uplink"] }).run ((positive 300).run t).2 =
        (l, ((positive 300).run t).2) ∧
      l.wellFormed.run ((positive 300).run t).2 = (q, u) ∧
      Nonempty ({v : Fin l.variableCount → Bool // u.eval q (Valuation.extend v) = true} ≃
        FieldValues { Domain.nameless with tracks := ["uplink"] }) := by
  generalize { Domain.nameless with tracks := ["uplink"] } = d
  rcases hl : (ofDomain d).run .empty with ⟨l, t⟩
  have ht : t.Reachable := by
    have hreached := reaches_ofDomain d _ .empty
    rwa [hl] at hreached
  have hle : t ≤ ((positive 300).run t).2 := (yields_positive 300 ht.valid).2.1
  have hlater : ((positive 300).run t).2.Reachable :=
    .step (.positive 300) ht fun _ h => absurd h List.not_mem_nil
  rcases hq : l.wellFormed.run ((positive 300).run t).2 with ⟨q, u⟩
  obtain ⟨-, hagain, hvalues⟩ := ofDomain_faithful .empty hl
  obtain ⟨e, -⟩ := hvalues _ hle hlater q u hq
  exact ⟨l, t, q, u, rfl, hagain _ hle hlater, hq, ⟨e⟩⟩

end Layout
end RouteSolver
