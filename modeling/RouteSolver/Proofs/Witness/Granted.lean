/-
# What granted wishes say of a witness

A wish speaks of a route (`Wish.HoldsOf`). At the encoding of a route its formula is true exactly
when it holds of the route (`Encodes.asks_iff`), so all wishes that have been granted hold of the
route that the model describes, and no route does better (`exists_preferred`). That route is not
quite the witness: a decoded network has no host bits.

No wish but the last one sees the difference. "Address at least `a`" may be true of an address with
host bits and false once they are cleared. For which preferences this can happen is decided by the
preferences alone: it cannot if, for all lengths that are asked for, clearing the host bits of `a`
changes nothing, or leads to a network that is wished for before (`Preferences.KeepsFloor`,
`granted_hold_iff`).
-/

import RouteSolver.Proofs.Preference.Greedy
import RouteSolver.Proofs.Witness.Search

namespace RouteSolver

open Diagram

/-! ### Wishes about routes -/

/-- What a wish says of a route. -/
def Wish.HoldsOf (r : Route) : Wish → Prop
  | .protocol p => r.protocol = p
  | .localPreference n => r.localPreference = n
  | .prefixIn networks => r.network ∈ networks.map Network.truncate
  | .prefixAtLeast address length =>
    address.toNat ≤ r.network.address.toNat ∧ length.toNat ≤ r.network.length

instance (r : Route) : DecidablePred (Wish.HoldsOf r)
  | .protocol p => inferInstanceAs (Decidable (r.protocol = p))
  | .localPreference n => inferInstanceAs (Decidable (r.localPreference = n))
  | .prefixIn networks => inferInstanceAs (Decidable (r.network ∈ networks.map Network.truncate))
  | .prefixAtLeast address length => inferInstanceAs (Decidable
    (address.toNat ≤ r.network.address.toNat ∧ length.toNat ≤ r.network.length))

theorem Address.toNat_injective {a b : Address} (h : a.toNat = b.toNat) : a = b := by
  rw [← a.ofNat_toNat, h, b.ofNat_toNat]

namespace Network

theorem ext_parts {n m : Network} (haddress : n.address = m.address)
    (hlength : n.length = m.length) : n = m := by
  cases n
  cases m
  cases haddress
  cases hlength
  rfl

theorem toNat_truncate (n : Network) :
    n.truncate.address.toNat = n.address.toNat / n.size * n.size := n.toNat_first

theorem toNat_truncate_le_self (n : Network) : n.truncate.address.toNat ≤ n.address.toNat :=
  n.toNat_truncate ▸ Nat.div_mul_le_self _ _

theorem truncate_truncate (n : Network) : n.truncate.truncate = n.truncate := by
  refine ext_parts (Address.toNat_injective ?_) rfl
  rw [toNat_truncate, size_truncate, toNat_truncate_div, toNat_truncate]

end Network

/-- **The formula of a wish** is true at the encoding of a route if the wish holds of the route. -/
theorem Encodes.asks_iff {d : Domain} {r : Route} {e : Environment} {v : Valuation}
    (h : Encodes d r e v) (w : Wish) : w.asks v = true ↔ w.HoldsOf r := by
  cases w with
  | protocol p =>
    rw [Wish.asks, decide_eq_true_iff, h.protocol, oneHot_inj p.mem_all]
    rfl
  | localPreference n =>
    rw [Wish.asks, decide_eq_true_iff, h.localPreference,
      Bits.value_ofNat r.localPreference.toNat_lt, UInt32.toNat_inj]
    rfl
  | prefixIn networks =>
    rw [Wish.asks, List.any_eq_true, Wish.HoldsOf, List.mem_map]
    refine exists_congr fun n => and_congr_right fun _ => ?_
    rw [Wish.prefixIs, Bool.and_eq_true, decide_eq_true_iff, decide_eq_true_iff, h.value_address,
      h.value_length]
    constructor
    · rintro ⟨haddress, hlength⟩
      exact Network.ext_parts (Address.toNat_injective haddress.symm) hlength.symm
    · intro hn
      rw [← hn]
      exact ⟨rfl, rfl⟩
  | prefixAtLeast address length =>
    rw [Wish.asks, Bool.and_eq_true, decide_eq_true_iff, decide_eq_true_iff, h.value_address,
      h.value_length]
    rfl

/-! ### The route that the model describes -/

namespace Witness

/-- With the network `n`, which may have host bits, the route of the witness does for the wishes, in
their order, the most that any route does that solves the scenario. -/
structure Preferred (sc : Scenario) (w : Witness) (n : Network) : Prop where
  single : ∀ hop ∈ w.route.asPath.hops, hop.isSingle = true
  clusters : w.route.clusterList.size ≤ 255
  solves : Solves sc w.route w.environment
  network_eq : w.route.network = n.truncate
  granted_eq : w.granted =
    sc.preferences.wishes.filter fun x => decide (x.HoldsOf { w.route with network := n })
  best : ∀ r e, (∀ hop ∈ r.asPath.hops, hop.isSingle = true) → r.clusterList.size ≤ 255 →
    Solves sc r e → (sc.preferences.wishes.map fun x => decide (x.HoldsOf r)) ≤
      sc.preferences.wishes.map fun x => decide (x.HoldsOf { w.route with network := n })

/-- **Granted wishes hold of the route that the model describes**, and no other one does better. -/
theorem exists_preferred {sc : Scenario} {w : Witness} (h : search sc true = .ok w) :
    ∃ n, Preferred sc w n := by
  obtain ⟨d, hd, hreg, houtcome⟩ := exists_outcome h
  cases houtcome with
  | decoded hg hv hx =>
    have htrue := hg.entails hv.holds
    obtain ⟨hgranted, hclusters, hsingle, n, hn, henc⟩ :=
      hx.encodes (NameList.domain_valid hd) (Scenario.truth_iff.1 htrue).1
    have hasks : ∀ {r e v}, Encodes d r e v →
        (fun x : Wish => decide (x.HoldsOf r)) = (·.asks v) := fun henc =>
      funext fun x => by rw [Bool.eq_iff_iff, decide_eq_true_iff, henc.asks_iff]
    refine ⟨n, hsingle, hclusters, Decodes.solves hd hreg hx htrue, hn, ?_,
      fun r e hr hsize hsolves => ?_⟩
    · rw [hasks henc, hgranted]
      exact hg.eq_filter hv.holds
    · rw [hasks henc, hasks (encodes_encode d r e)]
      exact hg.verdicts_le hv.holds ((truth_encode_iff hd hreg hr hsize).2 hsolves)

end Witness

/-! ### Host bits of the lowest address -/

/-- Clearing the host bits of the lowest address, for any length that is long enough, changes
nothing or leads to a network that is wished for. -/
def Preferences.KeepsFloor (p : Preferences) : Prop :=
  ∀ n : Network, n.address = p.minAddress → p.minLength.toNat ≤ n.length →
    n.truncate = n ∨ n.truncate ∈ p.prefixes.map Network.truncate

namespace Network

theorem eq_truncate_of_mem {n : Network} {ns : List Network} (h : n ∈ ns.map truncate) :
    n = n.truncate := by
  obtain ⟨m, -, rfl⟩ := List.mem_map.1 h
  exact m.truncate_truncate.symm

/-- Between a network and its address lie addresses of the network only. -/
theorem truncate_eq_of_between {n m : Network} (hlength : n.length = m.length)
    (hlow : n.truncate.address.toNat < m.address.toNat)
    (hhigh : m.address.toNat ≤ n.address.toNat) : m.truncate = n.truncate := by
  have hsize : m.size = n.size := by rw [size, size, hlength]
  have hdiv : m.address.toNat / n.size = n.address.toNat / n.size :=
    Nat.le_antisymm (Nat.div_le_div_right hhigh)
      (n.toNat_truncate_div ▸ Nat.div_le_div_right (Nat.le_of_lt hlow))
  refine ext_parts (Address.toNat_injective ?_) hlength.symm
  rw [toNat_truncate, toNat_truncate, hsize, hdiv]

/-- Two networks of one length are the same if one is in the other. -/
theorem truncate_eq_of_isSubnetOf {n m : Network} (h : n.IsSubnetOf m)
    (hlength : n.length = m.length) : n.truncate = m.truncate := by
  have hsize : n.size = m.size := by rw [size, size, hlength]
  have hdiv := (m.contains_iff).1 (h _ n.contains_address)
  refine ext_parts (Address.toNat_injective ?_) hlength
  rw [toNat_truncate, toNat_truncate, hsize, hdiv]

/-- Clearing host bits keeps the order of addresses. -/
theorem toNat_truncate_le {n m : Network} (hlength : n.length = m.length)
    (h : m.address.toNat ≤ n.address.toNat) :
    m.truncate.address.toNat ≤ n.truncate.address.toNat := by
  have hsize : m.size = n.size := by rw [size, size, hlength]
  rw [toNat_truncate, toNat_truncate, hsize]
  exact Nat.mul_le_mul_right _ (Nat.div_le_div_right h)

end Network

namespace Witness

section
variable {sc : Scenario} {w : Witness} {n : Network}

theorem Preferred.mem_granted_iff (h : Preferred sc w n) {x : Wish} :
    x ∈ w.granted ↔ x ∈ sc.preferences.wishes ∧ x.HoldsOf { w.route with network := n } := by
  rw [h.granted_eq, List.mem_filter, decide_eq_true_iff]

theorem third_of_le : ∀ a b c d x y : Bool, [a, b, c, x] ≤ [a, b, d, y] → c = true → d = true := by
  decide

/-- The witness, without host bits, would have been preferred if its network is wished for. -/
theorem Preferred.mem_prefixes (h : Preferred sc w n)
    (hmem : n.truncate ∈ sc.preferences.prefixes.map Network.truncate) :
    n ∈ sc.preferences.prefixes.map Network.truncate := by
  have hbest := h.best w.route w.environment h.single h.clusters h.solves
  have hholds : (Wish.prefixIn sc.preferences.prefixes).HoldsOf w.route := by
    rw [Wish.HoldsOf, h.network_eq]
    exact hmem
  exact of_decide_eq_true (third_of_le _ _ _ _ _ _ hbest (decide_eq_true hholds))

/-- **Nothing is granted in vain** if the preferences keep the lowest address. -/
theorem Preferred.holdsOf (h : Preferred sc w n) (hkeeps : sc.preferences.KeepsFloor) {x : Wish}
    (hx : x ∈ w.granted) : x.HoldsOf w.route := by
  obtain ⟨hmem, hholds⟩ := h.mem_granted_iff.1 hx
  simp only [Preferences.wishes, List.mem_cons, List.not_mem_nil, or_false] at hmem
  rcases hmem with rfl | rfl | rfl | rfl
  · exact hholds
  · exact hholds
  · rw [Wish.HoldsOf, h.network_eq, ← Network.eq_truncate_of_mem hholds]
    exact hholds
  · obtain ⟨haddress, hlength⟩ := hholds
    rw [Wish.HoldsOf, h.network_eq]
    refine ⟨?_, hlength⟩
    let floor : Network := ⟨sc.preferences.minAddress, n.length, n.length_le⟩
    rcases hkeeps floor rfl hlength with hsame | hwished
    · have hle := Network.toNat_truncate_le (n := n) (m := floor) rfl haddress
      rwa [hsame] at hle
    · -- a lowest address among the host bits makes the network one that is wished for
      rw [← not_lt]
      intro hlow
      rw [Network.truncate_eq_of_between (n := n) (m := floor) rfl hlow haddress] at hwished
      rw [← Network.eq_truncate_of_mem (h.mem_prefixes hwished)] at hlow
      exact absurd haddress (Nat.not_le.2 hlow)

end

/-! ### When a floor is missed -/

theorem last_of_le : ∀ x a b c d : Bool, [true, true, x, true] ≤ [a, b, c, d] →
    c = false → d = true := by decide

/-- Any route in one network and of its length. -/
def pinned (p : Preferences) (n : Network) : Scenario :=
  ⟨.empty, [.prefixWithin n (some (.ofNat n.length)) (some (.ofNat n.length))], p⟩

/-- **A floor among the host bits** is said to be kept, and is missed. -/
theorem search_pinned {p : Preferences} {n : Network} (haddress : n.address = p.minAddress)
    (hlength : p.minLength.toNat ≤ n.length)
    (hwished : n.truncate ∉ p.prefixes.map Network.truncate) :
    ∃ w, search (pinned p n) true = .ok w ∧ w.route.network = n.truncate ∧
      .prefixAtLeast p.minAddress p.minLength ∈ w.granted := by
  have hlen : (UInt8.ofNat n.length).toNat = n.length :=
    UInt8.toNat_ofNat_of_lt' (Nat.lt_of_le_of_lt n.length_le (by decide))
  let r : Route :=
    { staticRoute with network := n, protocol := p.protocol, localPreference := p.localPreference }
  have hsingle : ∀ hop ∈ staticRoute.asPath.hops, hop.isSingle = true := by decide
  have hclusters : staticRoute.clusterList.size ≤ 255 := by decide
  have hsolves : Solves (pinned p n) r ⟨[], none⟩ := (Constraint.allHold_iff _).1
    ⟨⟨fun _ ha => ha, Nat.le_of_eq hlen, Nat.le_of_eq hlen.symm⟩, trivial⟩
  have hnames : (pinned p n).allNames.domain = .ok .nameless := NameList.domain_empty
  obtain ⟨w, hw⟩ := exists_search_eq_ok hnames Domain.readable_nameless ⟨trivial, trivial⟩
    (r := r) hsingle hclusters hsolves true
  obtain ⟨m, hm⟩ := exists_preferred hw
  obtain ⟨hsub, hlo, hhi⟩ := hm.solves _ List.mem_cons_self
  have hnetwork : m.truncate = n.truncate := by
    rw [hm.network_eq] at hsub hlo hhi
    rw [← m.truncate_truncate]
    exact Network.truncate_eq_of_isSubnetOf hsub
      (Nat.le_antisymm (hhi.trans_eq hlen) (hlen.symm.trans_le hlo))
  refine ⟨w, hw, hm.network_eq.trans hnetwork,
    hm.mem_granted_iff.2 ⟨.tail _ (.tail _ (.tail _ (.head _))), ?_⟩⟩
  -- the network is not wished for, so that all turns on the last wish
  have hnot : m ∉ p.prefixes.map Network.truncate := fun hmem => by
    rw [Network.eq_truncate_of_mem hmem, hnetwork] at hmem
    exact hwished hmem
  have hprotocol : (Wish.protocol p.protocol).HoldsOf r := rfl
  have hpreference : (Wish.localPreference p.localPreference).HoldsOf r := rfl
  have hfloor : (Wish.prefixAtLeast p.minAddress p.minLength).HoldsOf r :=
    ⟨Nat.le_of_eq (congrArg Address.toNat haddress.symm), hlength⟩
  have hbest := hm.best r ⟨[], none⟩ hsingle hclusters hsolves
  simp only [pinned, Preferences.wishes, List.map_cons, List.map_nil, decide_eq_true hprotocol,
    decide_eq_true hpreference, decide_eq_true hfloor] at hbest
  exact of_decide_eq_true (last_of_le _ _ _ _ _ hbest (decide_eq_false hnot))

/-- **Which preferences are granted for good.** All wishes that are ever granted hold of the witness
exactly if clearing host bits never leads from the lowest address to below it, or only ever to
networks that are wished for. -/
theorem granted_hold_iff (p : Preferences) :
    (∀ sc w, sc.preferences = p → search sc true = .ok w → ∀ x ∈ w.granted, x.HoldsOf w.route) ↔
      p.KeepsFloor := by
  constructor
  · intro hhold n haddress hlength
    by_contra hnot
    obtain ⟨hne, hwished⟩ := not_or.1 hnot
    obtain ⟨w, hw, hnetwork, hgranted⟩ := search_pinned haddress hlength hwished
    obtain ⟨hle, -⟩ := hhold (pinned p n) w rfl hw _ hgranted
    rw [hnetwork, ← haddress] at hle
    exact hne (Network.ext_parts (Address.toNat_injective
      (Nat.le_antisymm n.toNat_truncate_le_self hle)) rfl)
  · rintro hkeeps sc w rfl hw x hx
    obtain ⟨n, hn⟩ := exists_preferred hw
    exact hn.holdsOf hkeeps hx

/-- One host bit: any address from 10.0.0.1 on will do, in networks of at least 8 bits. -/
def oneHostBit : Preferences :=
  { Preferences.default with prefixes := [], minAddress := .ofOctets 10 0 0 1, minLength := 8 }

/-- The network of that address with its host bits. -/
def oneHostBitNetwork : Network := ⟨.ofOctets 10 0 0 1, 8, Nat.le_add_right 8 24⟩

/-- The witness in 10.0.0.1/8 is 10.0.0.0/8, and said to be at least 10.0.0.1. -/
theorem granted_missed_oneHostBit : ∃ w, search (pinned oneHostBit oneHostBitNetwork) true = .ok w ∧
    ∃ x ∈ w.granted, ¬x.HoldsOf w.route := by
  obtain ⟨w, hw, hnetwork, hgranted⟩ := search_pinned (p := oneHostBit) (n := oneHostBitNetwork) rfl
    (by decide) List.not_mem_nil
  refine ⟨w, hw, _, hgranted, ?_⟩
  rw [Wish.HoldsOf, hnetwork]
  decide

end Witness

end RouteSolver
