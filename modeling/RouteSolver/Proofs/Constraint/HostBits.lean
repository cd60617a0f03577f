/-
# Host bits of a prefix

A constraint on the prefix compares the address with the ends of a network and the length with two
bounds: two separate checks, on 32 and on 6 variables. Together they say that the prefix lies in the
network, where host bits count on neither side (`Constraint.prefixTruth_iff_masked`): the least
length is never below that of the network, so all bits that the ends look at are kept when the host
bits of the prefix are cleared.

Decoding clears them. So it leaves the value of such a constraint as it is, and that of its negation
(`Constraint.prefixWithin_masked`).
-/

import RouteSolver.Proofs.Constraint.Formula
import RouteSolver.Proofs.Encoding.Faithful

namespace RouteSolver

open Diagram
open Layout (addressStart lengthStart lengthWidth)

namespace Network

variable {n m : Network}

theorem isSubnetOf_truncate_right : n.IsSubnetOf m.truncate ↔ n.IsSubnetOf m :=
  forall_congr' fun _ => imp_congr_right fun _ => m.contains_truncate

end Network

/-! ### Valuations that describe a network -/

/-- Read through the layout, the address and the length of the valuation are those of the network,
host bits included. -/
structure Layout.ReadsNetwork (l : Layout) (s : Store) (v : Valuation) (n : Network) : Prop where
  address : Bits.value (s.evalAll l.address.bits v) = n.address.toNat
  length : Bits.value (s.evalAll l.length.bits v) = n.length

/-- A decoded route has the network that the model describes, with its host bits cleared. -/
theorem Decoding.network_of_routeOver {s : Store} {m : Ref} {l : Layout} {d : Domain} {r : Route}
    (hr : routeOver s m l d = .ok r) : ∃ n,
      Network.of? (.ofNat (l.address.valueUnder s m)) (l.length.valueUnder s m) = some n ∧
        r.network = n.truncate := by
  unfold routeOver at hr
  dsimp only at hr
  cases hn : Network.of? (.ofNat (l.address.valueUnder s m)) (l.length.valueUnder s m) with
  | none =>
    rw [hn] at hr
    nomatch hr
  | some n =>
    rw [hn] at hr
    -- the fields that are read after it have no part in the network
    obtain ⟨cs, -, hr⟩ := exists_of_bind_eq_ok hr
    obtain ⟨path, -, hr⟩ := exists_of_bind_eq_ok hr
    obtain ⟨hop, -, hr⟩ := exists_of_bind_eq_ok hr
    exact ⟨n, rfl, Except.ok.inj hr ▸ rfl⟩

namespace Layout.Over

variable {d : Domain} {l : Layout} {s : Store} (h : l.Over d s) {v : Valuation} {n : Network}
include h

theorem readsNetwork_iff : l.ReadsNetwork s v n ↔
    Bits.value (block v addressStart 32) = n.address.toNat ∧
      Bits.value (block v lengthStart lengthWidth) = n.length := by
  constructor
  · rintro ⟨haddress, hlength⟩
    rw [h.address.evalAll_eq] at haddress
    rw [h.length.evalAll_eq] at hlength
    exact ⟨haddress, hlength⟩
  · rintro ⟨haddress, hlength⟩
    exact ⟨by rw [h.address.evalAll_eq, haddress], by rw [h.length.evalAll_eq, hlength]⟩

/-- The encoding of a route describes the network of the route. -/
theorem readsNetwork_encode (r : Route) (e : Environment) :
    l.ReadsNetwork s (encode d r e) r.network :=
  h.readsNetwork_iff.2 ⟨(encodes_encode d r e).value_address, (encodes_encode d r e).value_length⟩

/-- Every network is described by some valuation. -/
theorem exists_readsNetwork (n : Network) : ∃ v, l.ReadsNetwork s v n :=
  ⟨_, h.readsNetwork_encode { staticRoute with network := n } ⟨[], none⟩⟩

/-- **What is decoded from a cube** is the network that the filling of the cube describes, with its
host bits cleared. -/
theorem network_of_routeOver (hs : s.Valid) {m : Ref} {p : Assignment} (hm : s.IsCube m p)
    {r : Route} (hr : Decoding.routeOver s m l d = .ok r) :
    ∃ n, l.ReadsNetwork s p.fill n ∧ r.network = n.truncate := by
  obtain ⟨n, hn, hnetwork⟩ := Decoding.network_of_routeOver hr
  rw [valueUnder_eq hs hm h.address, valueUnder_eq hs hm h.length] at hn
  unfold Network.of? at hn
  split at hn
  · obtain rfl := Option.some.inj hn
    refine ⟨_, h.readsNetwork_iff.2 ⟨?_, rfl⟩, hnetwork⟩
    exact (toNat_ofNat_value p.fill addressStart).symm
  · cases hn

end Layout.Over

/-! ### The constraint -/

namespace Constraint

variable {d : Domain} {l : Layout} {s : Store}

/-- **Host bits do not count**, neither those of the prefix nor those of the network. -/
theorem prefixTruth_iff_masked {v : Valuation} {n : Network}
    (haddress : Bits.value (block v addressStart 32) = n.address.toNat)
    (hlength : Bits.value (block v lengthStart lengthWidth) = n.length) (network : Network)
    (minLength maxLength : Option UInt8) :
    truth d v (.prefixWithin network minLength maxLength) = true ↔
      n.truncate.IsSubnetOf network.truncate ∧
        max ((minLength.map UInt8.toNat).getD 0) network.length ≤ n.length ∧
          n.length ≤ (maxLength.map UInt8.toNat).getD 32 := by
  rw [truth, hlength, Bool.and_eq_true, decide_eq_true_iff, Network.spans_iff haddress,
    n.isSubnetOf_truncate, Network.isSubnetOf_truncate_right, Network.isSubnetOf_iff]
  constructor
  · rintro ⟨hcontains, hmin, hmax⟩
    exact ⟨⟨(Nat.le_max_right _ _).trans hmin, hcontains⟩, hmin, hmax⟩
  · rintro ⟨⟨-, hcontains⟩, hmin, hmax⟩
    exact ⟨hcontains, hmin, hmax⟩

/-- A registered constraint has a formula, which denotes what the constraint asks. -/
theorem exists_formula (hl : l.Over d s) (hs : s.Valid) (c : Constraint) (hc : c.Registered d) :
    ∃ q t, (c.formula l d).run s = (.ok q, t) ∧ t.Valid ∧ s ≤ t ∧
      t.Denotes q fun v => c.truth d v := by
  rcases hrun : (c.formula l d).run s with ⟨x, t⟩
  obtain ⟨q, hq⟩ := total_formula hl c hc s
  rw [hrun] at hq
  obtain rfl : x = .ok q := hq
  obtain ⟨ht, hst, htruth⟩ := Yields.of_run (yields_truth c hl) hs hrun
  exact ⟨q, t, rfl, ht, hst, (htruth q rfl).1⟩

/-- **Masking keeps a constraint on the prefix.** Over every layout the constraint and its negation
have formulas. Where a valuation describes an address and a length, the first is true exactly if the
masked prefix is a subnet of the masked network and the length lies between the bounds, the least of
them no less than the length of the network; the second is its opposite; and both have the same
value where the valuation describes the masked prefix. So the route that a cube is decoded to has
the values that the cube has. -/
theorem prefixWithin_masked {s₀ s₁ : Store} (hs₀ : s₀.Reachable)
    (hl : (Layout.ofDomain d).run s₀ = (l, s₁)) (hs : s.Reachable) (hle : s₁ ≤ s)
    (network : Network) (minLength maxLength : Option UInt8) :
    let c := Constraint.prefixWithin network minLength maxLength
    ∃ q t q' t', (c.formula l d).run s = (.ok q, t) ∧ ((not c).formula l d).run s = (.ok q', t') ∧
      (∀ n, ∃ v, l.ReadsNetwork s v n) ∧
      (∀ v n, l.ReadsNetwork s v n →
        (t.eval q v = true ↔ n.truncate.IsSubnetOf network.truncate ∧
          max ((minLength.map UInt8.toNat).getD 0) network.length ≤ n.length ∧
            n.length ≤ (maxLength.map UInt8.toNat).getD 32) ∧
        t'.eval q' v = !t.eval q v ∧
        ∀ w, l.ReadsNetwork s w n.truncate →
          t.eval q w = t.eval q v ∧ t'.eval q' w = t'.eval q' v) ∧
      ∀ u m p r e, s ≤ u → u.Reachable → u.IsCube m p → Decoding.routeOver u m l d = .ok r →
        t.eval q (encode d r e) = t.eval q p.fill ∧
          t'.eval q' (encode d r e) = t'.eval q' p.fill := by
  intro c
  obtain ⟨hs₁, -, hover⟩ := (Layout.yields_ofDomain d).of_run hs₀.valid hl
  have hover := hover.mono hs₁ hle
  obtain ⟨q, t, hrun, -, -, hq⟩ := exists_formula hover hs.valid c trivial
  obtain ⟨q', t', hrun', -, -, hq'⟩ := exists_formula hover hs.valid (not c) trivial
  have hexact : ∀ v n, l.ReadsNetwork s v n → (t.eval q v = true ↔
      n.truncate.IsSubnetOf network.truncate ∧
        max ((minLength.map UInt8.toNat).getD 0) network.length ≤ n.length ∧
          n.length ≤ (maxLength.map UInt8.toNat).getD 32) := fun v n hv => by
    obtain ⟨haddress, hlength⟩ := hover.readsNetwork_iff.1 hv
    rw [hq.eval_eq]
    exact prefixTruth_iff_masked haddress hlength network minLength maxLength
  have hnot : ∀ v (c : Constraint), truth d v (not c) = !truth d v c := fun v c => by rw [truth]
  have hopposite : ∀ v, t'.eval q' v = !t.eval q v := fun v => by
    rw [hq'.eval_eq, hq.eval_eq, hnot]
  have hmasked : ∀ v n w, l.ReadsNetwork s v n → l.ReadsNetwork s w n.truncate →
      t.eval q w = t.eval q v ∧ t'.eval q' w = t'.eval q' v := fun v n w hv hw => by
    have heq : t.eval q w = t.eval q v := by
      rw [Bool.eq_iff_iff, hexact v n hv, hexact w _ hw, n.truncate.isSubnetOf_truncate]
      rfl
    exact ⟨heq, by rw [hopposite, hopposite, heq]⟩
  refine ⟨q, t, q', t', hrun, hrun', hover.exists_readsNetwork,
    fun v n hv => ⟨hexact v n hv, hopposite v, fun w hw => hmasked v n w hv hw⟩,
    fun u m p r e hsu hu hm hr => ?_⟩
  obtain ⟨n, hn, hnetwork⟩ := (hover.mono hs.valid hsu).network_of_routeOver hu.valid hm hr
  have hv : l.ReadsNetwork s p.fill n :=
    hover.readsNetwork_iff.2 ((hover.mono hs.valid hsu).readsNetwork_iff.1 hn)
  exact hmasked p.fill n _ hv (hnetwork ▸ hover.readsNetwork_encode r e)

/-- Host bits on both sides: 10.1.2.3/16 is in 10.0.0.1/8 and no longer than 24 bits, and so is what
becomes of it, 10.1.0.0/16. -/
theorem prefixWithin_masked_hostBits :
    let network : Network := ⟨.ofOctets 10 0 0 1, 8, by decide⟩
    let n : Network := ⟨.ofOctets 10 1 2 3, 16, by decide⟩
    let c := Constraint.prefixWithin network none (some 24)
    ∃ l s q t q' t', (Layout.ofDomain .nameless).run .empty = (l, s) ∧
      (c.formula l .nameless).run s = (.ok q, t) ∧
      ((not c).formula l .nameless).run s = (.ok q', t') ∧
      ∃ v w, l.ReadsNetwork s v n ∧ l.ReadsNetwork s w n.truncate ∧
        t.eval q v = true ∧ t.eval q w = true ∧ t'.eval q' v = false ∧ t'.eval q' w = false := by
  intro network n c
  rcases hl : (Layout.ofDomain .nameless).run .empty with ⟨l, s⟩
  have hs := Layout.reachable_of_ofDomain .empty hl
  obtain ⟨q, t, q', t', hrun, hrun', hreads, hexact, -⟩ :=
    prefixWithin_masked .empty hl hs le_rfl network none (some 24)
  obtain ⟨v, hv⟩ := hreads n
  obtain ⟨w, hw⟩ := hreads n.truncate
  obtain ⟨hiff, hopposite, hmasked⟩ := hexact v n hv
  obtain ⟨heq, heq'⟩ := hmasked w hw
  have htrue : t.eval q v = true := by
    refine hiff.2 ⟨(Network.isSubnetOf_iff _ _).2 ⟨by decide, by decide, by decide⟩, ?_⟩
    decide
  rw [htrue] at hopposite
  exact ⟨l, s, q, t, q', t', rfl, hrun, hrun', v, w, hv, hw, htrue, heq.trans htrue, hopposite,
    heq'.trans hopposite⟩

end Constraint
end RouteSolver
