/-
# Round trips between models and routes

Decoding inverts the encoding in both directions. What is decoded from a well-formed cube encodes to
a valuation that has all values the cube fixes (`encode_decode`); only the host bits of the prefix
are lost, because a decoded network has none. And a route that represents its classes is decoded
from the cube of its encoding (`decode_encode`).

Well-formedness looks at some fields only, so a cube that fixes those as an encoding does entails it
(`exists_cube_of_checked`), whatever it says of the others.
-/

import RouteSolver.Proofs.Constraint.Meaning
import RouteSolver.Proofs.Constraint.Mentions
import RouteSolver.Proofs.Diagram.Reachable
import RouteSolver.Proofs.Lists
import RouteSolver.Proofs.Witness.Nameless

namespace RouteSolver

open Diagram
open Layout (addressStart lengthStart localPreferenceStart)

/-! ### Host bits -/

/-- The variable is a bit of the prefix address beyond the prefix length. -/
def Layout.IsHostBit (n : Network) (i : Nat) : Prop :=
  addressStart + n.length ≤ i ∧ i < lengthStart

theorem getElem?_ofNat_truncate (n : Network) {j : Nat} (hj : j < n.length) :
    (Bits.ofNat 32 n.truncate.address.toNat)[j]? = (Bits.ofNat 32 n.address.toNat)[j]? := by
  have hlen := n.length_le
  have hbit : 32 - n.length ≤ 32 - 1 - j := by omega
  rw [Bits.getElem?_ofNat _ (by omega), Bits.getElem?_ofNat _ (by omega), n.testBit_truncate hbit]

/-- The bits of a route begin with the protocol and the address; the others do not depend on the
address. -/
theorem exists_flatten_blocks (d : Domain) (r : Route) (e : Environment) : ∃ rest, ∀ n : Network,
    n.length = r.network.length → (blocks d { r with network := n } e).flatten =
      oneHot Protocol.all r.protocol ++ (Bits.ofNat 32 n.address.toNat ++ rest) := by
  refine ⟨((blocks d r e).drop 2).flatten, fun n hn => ?_⟩
  simp only [blocks, List.flatten_cons, List.drop_succ_cons, List.drop_zero, hn]

/-- **Clearing host bits** changes no other variable of the encoding. -/
theorem encode_truncate (d : Domain) (r : Route) (e : Environment) {i : Nat}
    (hi : ¬Layout.IsHostBit r.network i) :
    encode d { r with network := r.network.truncate } e i = encode d r e i := by
  obtain ⟨rest, hrest⟩ := exists_flatten_blocks d r e
  have hself : (blocks d r e).flatten = _ := hrest r.network rfl
  simp only [encode, hrest r.network.truncate rfl, hself, List.getD_eq_getElem?_getD]
  refine congrArg (Option.getD · false) (getElem?_replace_middle ?_ fun j hj hij => ?_)
  · rw [Bits.length_ofNat, Bits.length_ofNat]
  · rw [Bits.length_ofNat] at hj
    rw [length_oneHot] at hij
    have hstart : addressStart = Protocol.all.length := rfl
    have hend : lengthStart = addressStart + 32 := rfl
    refine getElem?_ofNat_truncate _ (Nat.lt_of_not_le fun hle => hi ⟨?_, ?_⟩) <;> omega

/-! ### Models that entail well-formedness -/

section
variable {d : Domain} {s₀ s₁ s t : Store} {q m : Ref} {p : Assignment} {r : Route} {e : Environment}

theorem denotes_wellFormed (hs₀ : s₀.Valid)
    (hq : (Layout.ofDomain d >>= Layout.wellFormed).run s₀ = (q, s₁)) :
    s₁.Valid ∧ ∃ f, s₁.Denotes q f ∧ ∀ v, f v = true ↔ Layout.WellFormed d v := by
  have hyields : Yields s₀ (Layout.ofDomain d >>= Layout.wellFormed) fun q t =>
      ∃ f, t.Denotes q f ∧ ∀ v, f v = true ↔ Layout.WellFormed d v :=
    (Layout.yields_ofDomain d).bind fun l t _ _ hl => Layout.yields_wellFormed hl
  obtain ⟨hs₁, -, hf⟩ := hyields.of_run hs₀ hq
  exact ⟨hs₁, hf⟩

/-- A model that entails well-formedness is well formed where it leaves variables open, too. -/
theorem wellFormed_of_entails (hs₀ : s₀.Valid)
    (hq : (Layout.ofDomain d >>= Layout.wellFormed).run s₀ = (q, s₁)) (hs : s.Valid) (hle : s₁ ≤ s)
    (hm : s.IsCube m p) (hentails : s.entails m q = true) : Layout.WellFormed d p.fill := by
  obtain ⟨hs₁, f, hf, hwf⟩ := denotes_wellFormed hs₀ hq
  rw [hm.entails_iff hs (hf.mono hs₁ hle)] at hentails
  exact (hwf _).1 (hentails _ p.admits_fill)

end

/-- **A cube that fixes the checked variables** as an encoding does entails well-formedness. -/
theorem exists_cube_of_checked {d : Domain} (hd : d.Valid) {r : Route}
    (hr : ∀ hop ∈ r.asPath.hops, hop.isSingle = true) (e : Environment) {p : Assignment}
    (hp : ∀ i, d.variableCount ≤ i → p i = none)
    (hchecked : ∀ i, Layout.IsChecked d i → p i = some (encode d r e i)) : ∃ s₁ s q m,
      (Layout.ofDomain d >>= Layout.wellFormed).run .empty = (q, s₁) ∧ s.Valid ∧ s₁ ≤ s ∧
        s.IsCube m p ∧ s.entails m q = true := by
  rcases hq : (Layout.ofDomain d >>= Layout.wellFormed).run .empty with ⟨q, s₁⟩
  have hyields : Yields .empty (Layout.ofDomain d >>= Layout.wellFormed) fun q t =>
      d.variableCount ≤ t.variableCount ∧
        ∃ f, t.Denotes q f ∧ ∀ v, f v = true ↔ Layout.WellFormed d v :=
    (Layout.yields_ofDomain d).bind fun l t _ ht hl =>
      (Layout.yields_wellFormed hl).mono fun q u htu _ hf =>
        ⟨(hl.mono ht htu).variableCount_le, hf⟩
  obtain ⟨hs₁, -, hcount, f, hf, hwf⟩ := hyields.of_run Store.valid_empty hq
  obtain ⟨hs, hle, hm⟩ := yields_cube_assignment hcount hp hs₁
  refine ⟨s₁, _, q, _, rfl, hs, hle, hm, (hm.entails_iff hs (hf.mono hs₁ hle)).2 fun v hv => ?_⟩
  have henc := (encodes_encode d r e).wellFormed hd hr
  exact (hwf v).2 (henc.congr fun i hi => (hv i _ (hchecked i hi)).symm)

/-- The encoding of a route with single AS numbers is a cube that entails well-formedness. -/
theorem exists_cube_encode {d : Domain} (hd : d.Valid) {r : Route}
    (hr : ∀ hop ∈ r.asPath.hops, hop.isSingle = true) (e : Environment) : ∃ s₁ s q m,
      (Layout.ofDomain d >>= Layout.wellFormed).run .empty = (q, s₁) ∧ s.Valid ∧ s₁ ≤ s ∧
        s.IsCube m (.below d.variableCount (encode d r e)) ∧ s.entails m q = true :=
  exists_cube_of_checked hd hr e (fun _ hi => if_neg hi.not_gt) fun _ hi => if_pos hi.lt

/-- What an encoding says of the checked variables; all others are open. -/
def checkedPart (d : Domain) (r : Route) (e : Environment) : Assignment := fun i =>
  if Layout.IsChecked d i then some (encode d r e i) else none

theorem exists_cube_checkedPart {d : Domain} (hd : d.Valid) {r : Route}
    (hr : ∀ hop ∈ r.asPath.hops, hop.isSingle = true) (e : Environment) : ∃ s₁ s q m,
      (Layout.ofDomain d >>= Layout.wellFormed).run .empty = (q, s₁) ∧ s.Valid ∧ s₁ ≤ s ∧
        s.IsCube m (checkedPart d r e) ∧ s.entails m q = true :=
  exists_cube_of_checked hd hr e (fun _ hi => if_neg fun h => hi.not_gt h.lt) fun _ hi => if_pos hi

/-- With the communities open, and the least AS path, all that holds can be read. -/
theorem readableAt_checkedPart {d : Domain} (hd : d.Valid) {r : Route} (hr : r.asPath = .empty)
    (e : Environment) : d.ReadableAt (checkedPart d r e).fill := by
  refine readableAt_leastTexts hd hr e (fun i hi hi' => if_neg ?_) fun i hi hi' => if_pos ?_
  · have hfixed : addressStart ≤ Layout.listStart ∧ localPreferenceStart ≤ Layout.listStart := by
      decide
    rw [Layout.IsChecked]
    omega
  · have hend : d.trackStart ≤ d.variableCount := by
      rw [Domain.variableCount, Domain.nextHopInterfaceStart, Domain.sourceVrfStart]
      omega
    exact .inr (.inr (.inr ⟨hi, by omega⟩))

/-! ### A domain with names -/

/-- Patterns of communities and AS paths, a track, and two names each of what excludes each
other. -/
def edgeNames : NameList := ⟨[], ["1"], ["1"], ["uplink"], ["red", "blue"], ["eth0", "eth1"]⟩

/-- A route through the second interface. -/
def edgeRoute : Route := { staticRoute with nextHop := .interface "eth1" (.ofOctets 10 0 0 1) }

/-- The track succeeds, and the route comes from the second VRF. -/
def edgeEnvironment : Environment := ⟨["uplink"], some "blue"⟩

theorem exists_domain_edgeNames : ∃ d, edgeNames.domain = .ok d := by
  let one : Alternatives := ⟨.symbol (.char '1' (by decide)), []⟩
  have hcommunities : one.IsRead .community := by decide
  have hpaths : one.IsRead .asPath := by decide
  refine NameList.exists_domain_eq_ok nofun (fun p hp => ?_) fun p hp => ?_
  · obtain ⟨a, ha, -⟩ := Alternatives.exists_matching hcommunities
    exact ⟨a, List.mem_singleton.1 hp ▸ ha⟩
  · obtain ⟨a, ha, -⟩ := Alternatives.exists_matching hpaths
    exact ⟨a, List.mem_singleton.1 hp ▸ ha⟩

/-- None of the names is listed twice. -/
theorem lists_edge {d : Domain} (hd : edgeNames.domain = .ok d) : d.tracks = ["uplink"] ∧
    d.sourceVrfs = ["red", "blue"] ∧ d.nextHopInterfaces = ["eth0", "eth1"] := by
  obtain ⟨_, _, _, -, -, -, -, rfl⟩ := NameList.exists_of_domain hd
  exact ⟨rfl, rfl, rfl⟩

/-- Fixed are the second VRF and the second interface, and no address. -/
theorem checkedPart_edge {d : Domain} (hd : edgeNames.domain = .ok d) :
    checkedPart d edgeRoute edgeEnvironment addressStart = none ∧
    checkedPart d edgeRoute edgeEnvironment (d.sourceVrfStart + 1) = some true ∧
    checkedPart d edgeRoute edgeEnvironment (d.nextHopInterfaceStart + 1) = some true := by
  obtain ⟨-, hvrfs, hinterfaces⟩ := lists_edge hd
  have henc := encodes_encode d edgeRoute edgeEnvironment
  have hvrf := getElem?_block (encode d edgeRoute edgeEnvironment) d.sourceVrfStart
    (show 1 < d.sourceVrfs.length by rw [hvrfs]; decide)
  have hinterface := getElem?_block (encode d edgeRoute edgeEnvironment) d.nextHopInterfaceStart
    (show 1 < d.nextHopInterfaces.length by rw [hinterfaces]; decide)
  rw [henc.sourceVrfs, hvrfs] at hvrf
  rw [henc.nextHopInterfaces, hinterfaces] at hinterface
  have hlists : d.asPathStart ≤ d.sourceVrfStart ∧
      d.nextHopInterfaceStart = d.sourceVrfStart + 2 ∧
      d.variableCount = d.nextHopInterfaceStart + 2 := by
    refine ⟨?_, ?_, ?_⟩
    · rw [Domain.sourceVrfStart, Domain.trackStart]
      omega
    · rw [Domain.nextHopInterfaceStart, hvrfs]
      rfl
    · rw [Domain.variableCount, hinterfaces]
      rfl
  refine ⟨if_neg ?_, ?_, ?_⟩
  · have hfixed : addressStart < lengthStart ∧ addressStart < Layout.originTypeStart ∧
        addressStart < Layout.listStart := by decide
    have hstart : Layout.listStart ≤ d.asPathStart := Nat.le_add_right _ _
    rw [Layout.IsChecked]
    omega
  · rw [checkedPart, if_pos (.inr (.inr (.inr ⟨by omega, by omega⟩))), ← hvrf]
    decide
  · rw [checkedPart, if_pos (.inr (.inr (.inr ⟨by omega, by omega⟩))), ← hinterface]
    decide

theorem representable_edge {d : Domain} (hd : edgeNames.domain = .ok d) :
    Decoding.Representable d edgeRoute edgeEnvironment := by
  obtain ⟨htracks, hvrfs, hinterfaces⟩ := lists_edge hd
  refine representable_leastTexts (NameList.domain_valid hd) ?_ ?_ ?_
  · rw [hinterfaces]
    decide
  · rw [hvrfs]
    decide
  · rw [htracks]
    decide

/-! ### Encoding what has been decoded -/

section
variable {d : Domain} {s₀ s₁ s t : Store} {q m : Ref} {p : Assignment} {r : Route} {e : Environment}

/-- **Decoding inverts the encoding under partial models.** Whatever a cube fixes, if it entails
well-formedness, the encoding of what is decoded from it has the same values, host bits of the
prefix apart. -/
theorem encode_decode {names : NameList} (hd : names.domain = .ok d) (hs₀ : s₀.Valid)
    (hq : (Layout.ofDomain d >>= Layout.wellFormed).run s₀ = (q, s₁)) (hs : s.Valid) (hle : s₁ ≤ s)
    (hm : s.IsCube m p) (hentails : s.entails m q = true)
    (hr : (Decoding.route m d).run s = (.ok r, t))
    (he : ((Decoding.environment m d).run t).1 = .ok e)
    {i : Nat} {b : Bool} (hi : i < d.variableCount) (hb : p i = some b)
    (hhost : ¬Layout.IsHostBit r.network i) : encode d r e i = b := by
  have hwf := wellFormed_of_entails hs₀ hq hs hle hm hentails
  have hvalid := NameList.domain_valid hd
  obtain ⟨ht, hst, l, hl, hr⟩ := (Decoding.yields_route m d).of_run hs hr
  have hmt := hm.mono hs hst
  rcases hrun : (Decoding.environment m d).run t with ⟨y, u⟩
  obtain ⟨hu, htu, k, hk, rfl⟩ := (Decoding.yields_environment m d).of_run ht hrun
  rw [hrun] at he
  obtain ⟨n, hn, henc, -⟩ := Decoding.encodes_of_decode hvalid hwf ht hl hmt hr.symm hu hk
    (hmt.mono ht htu) he
  -- the route with the host bits that the cube fixes
  have hencode := (encodes_iff.1 henc i hi).symm
  rw [Assignment.fill, hb, Option.getD_some] at hencode
  rw [← hencode]
  have htruncate := encode_truncate d { r with network := n } e (i := i)
  rw [← hn] at htruncate
  exact htruncate (by rw [hn] at hhost; exact hhost)

end

theorem encode_decode_edge : ∃ (d : Domain) (s₁ s t : Store) (q m : Ref) (p : Assignment)
    (r : Route) (e : Environment), edgeNames.domain = .ok d ∧
      (Layout.ofDomain d >>= Layout.wellFormed).run .empty = (q, s₁) ∧ s.Valid ∧ s₁ ≤ s ∧
      s.IsCube m p ∧ s.entails m q = true ∧ (Decoding.route m d).run s = (.ok r, t) ∧
      ((Decoding.environment m d).run t).1 = .ok e ∧ p addressStart = none ∧
      p (d.sourceVrfStart + 1) = some true ∧ p (d.nextHopInterfaceStart + 1) = some true ∧
      ∀ i b, i < d.variableCount → p i = some b → ¬Layout.IsHostBit r.network i →
        encode d r e i = b := by
  obtain ⟨d, hd⟩ := exists_domain_edgeNames
  have hvalid := NameList.domain_valid hd
  obtain ⟨s₁, s, q, m, hq, hs, hle, hm, hentails⟩ :=
    exists_cube_checkedPart hvalid (representable_edge hd).single edgeEnvironment
  have hwf := wellFormed_of_entails Store.valid_empty hq hs hle hm hentails
  have hread := readableAt_checkedPart hvalid (r := edgeRoute) rfl edgeEnvironment
  rcases hr : (Decoding.route m d).run s with ⟨x, t⟩
  obtain ⟨ht, hst, l, hl, rfl⟩ := (Decoding.yields_route m d).of_run hs hr
  have hmt := hm.mono hs hst
  obtain ⟨r, hok⟩ := (Decoding.exists_routeOver_iff hvalid hwf ht hl hmt).2 hread
  rw [hok] at hr
  rcases he : (Decoding.environment m d).run t with ⟨y, u⟩
  obtain ⟨hu, htu, k, hk, rfl⟩ := (Decoding.yields_environment m d).of_run ht he
  obtain ⟨e, hok'⟩ := Decoding.exists_environmentOver hvalid hwf hu hk (hmt.mono ht htu)
  have he' : ((Decoding.environment m d).run t).1 = .ok e := by rw [he, hok']
  obtain ⟨hopen, hvrf, hinterface⟩ := checkedPart_edge hd
  exact ⟨d, s₁, s, t, q, m, _, r, e, hd, hq, hs, hle, hm, hentails, hr, he', hopen, hvrf,
    hinterface, fun i b hi hb hhost =>
      encode_decode hd Store.valid_empty hq hs hle hm hentails hr he' hi hb hhost⟩

/-! ### Decoding what has been encoded -/

/-- **Encoding inverts the decoding on representable routes.** The cube that fixes every variable of
the layout as a representable route and its environment do is decoded to that route and that
environment. -/
theorem decode_encode {names : NameList} {d : Domain} (hd : names.domain = .ok d) {s : Store}
    (hs : s.Valid) {r : Route} {e : Environment} (hrep : Decoding.Representable d r e) {m : Ref}
    (hm : s.IsCube m (.below d.variableCount (encode d r e))) :
    ∃ t, (Decoding.route m d).run s = (.ok r, t) ∧
      ((Decoding.environment m d).run t).1 = .ok e := by
  have hvalid := NameList.domain_valid hd
  have henc : Encodes d r e (Assignment.below d.variableCount (encode d r e)).fill :=
    encodes_iff.2 (Assignment.admits_below_iff.1 (Assignment.admits_fill _))
  rcases hrun : (Decoding.route m d).run s with ⟨x, t⟩
  obtain ⟨ht, hst, l, hl, rfl⟩ := (Decoding.yields_route m d).of_run hs hrun
  have hmt := hm.mono hs hst
  have hroute := (Decoding.decode_of_encodes hvalid ht hl hmt henc hrep).1
  rcases hrun' : (Decoding.environment m d).run t with ⟨y, u⟩
  obtain ⟨hu, htu, k, hk, rfl⟩ := (Decoding.yields_environment m d).of_run ht hrun'
  have henvironment := (Decoding.decode_of_encodes hvalid hu hk (hmt.mono ht htu) henc hrep).2
  exact ⟨t, by rw [hroute], by rw [hrun', henvironment]⟩

theorem decode_encode_staticRoute : ∃ (s t : Store) (m : Ref), s.Valid ∧
    s.IsCube m (.below Domain.nameless.variableCount
      (encode .nameless staticRoute ⟨[], none⟩)) ∧
      (Decoding.route m .nameless).run s = (.ok staticRoute, t) ∧
      ((Decoding.environment m .nameless).run t).1 = .ok ⟨[], none⟩ := by
  rcases hl : (Layout.ofDomain .nameless).run .empty with ⟨l, s₀⟩
  obtain ⟨hs₀, -, hl⟩ := (Layout.yields_ofDomain .nameless).of_run Store.valid_empty hl
  have hcube := yields_cube_below hl.variableCount_le (encode .nameless staticRoute ⟨[], none⟩)
  rcases hm : (cube ((List.range' 0 Domain.nameless.variableCount).map fun i =>
    (i, encode .nameless staticRoute ⟨[], none⟩ i))).run s₀ with ⟨m, s⟩
  obtain ⟨hs, -, hm⟩ := hcube.of_run hs₀ hm
  obtain ⟨t, hroute, henvironment⟩ :=
    decode_encode NameList.domain_empty hs representable_staticRoute hm
  exact ⟨s, t, m, hs, hm, hroute, henvironment⟩

end RouteSolver
