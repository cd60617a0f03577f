/-
# What constraints say

`Constraint.Holds` is the direct meaning of a constraint: it speaks of the fields of a concrete
route and of its environment, of networks as sets of addresses, and of texts that automata accept,
and knows nothing of variables, domains or diagrams.

One network is in another one exactly when it is at least as long and its address is in there
(`Network.isSubnetOf_iff`). Clearing host bits changes no network (`Network.contains_truncate`), so
no constraint can tell whether they have been cleared (`Constraint.holds_truncate`).
-/

import RouteSolver.Constraint.Basic
import RouteSolver.Proofs.Domain.Universe

namespace RouteSolver

open Delimited

/-! ### Networks -/

theorem Address.toNat_lt (a : Address) : a.toNat < 2 ^ 32 := a.bits.toNat_lt

theorem Address.toNat_ofNat {n : Nat} (h : n < 2 ^ 32) : (Address.ofNat n).toNat = n :=
  UInt32.toNat_ofNat_of_lt' h

namespace Network

/-- The address lies between the lowest and the highest one of the network. -/
def Contains (n : Network) (a : Address) : Prop := n.first.toNat ≤ a.toNat ∧ a.toNat ≤ n.last.toNat

/-- All addresses of the network are in the other one. -/
def IsSubnetOf (n m : Network) : Prop := ∀ a, n.Contains a → m.Contains a

variable (n m : Network) {a : Address}

theorem size_pos : 0 < n.size := Nat.pow_pos (by decide)

theorem size_dvd : n.size ∣ 2 ^ 32 := Nat.pow_dvd_pow 2 (Nat.sub_le 32 n.length)

theorem last_lt : n.address.toNat / n.size * n.size + (n.size - 1) < 2 ^ 32 := by
  obtain ⟨k, hk⟩ := n.size_dvd
  have hpos := n.size_pos
  have hlt : n.address.toNat / n.size < k := by
    rw [Nat.div_lt_iff_lt_mul hpos, Nat.mul_comm, ← hk]
    exact n.address.toNat_lt
  have hle : (n.address.toNat / n.size + 1) * n.size ≤ n.size * k := by
    rw [Nat.mul_comm n.size]
    exact Nat.mul_le_mul_right _ hlt
  rw [Nat.add_mul, Nat.one_mul] at hle
  omega

theorem toNat_first : n.first.toNat = n.address.toNat / n.size * n.size :=
  Address.toNat_ofNat (Nat.lt_of_le_of_lt (Nat.le_add_right _ _) n.last_lt)

theorem toNat_last : n.last.toNat = n.address.toNat / n.size * n.size + (n.size - 1) :=
  Address.toNat_ofNat n.last_lt

/-- **The addresses of a network** have its leading bits. -/
theorem contains_iff : n.Contains a ↔ a.toNat / n.size = n.address.toNat / n.size := by
  have hpos := n.size_pos
  rw [Contains, toNat_first, toNat_last, Nat.div_eq_iff hpos]
  omega

theorem contains_address : n.Contains n.address := (n.contains_iff).2 rfl

theorem contains_first : n.Contains n.first :=
  ⟨Nat.le_refl _, by rw [toNat_first, toNat_last]; exact Nat.le_add_right _ _⟩

theorem contains_last : n.Contains n.last :=
  ⟨by rw [toNat_first, toNat_last]; exact Nat.le_add_right _ _, Nat.le_refl _⟩

theorem size_truncate : n.truncate.size = n.size := rfl

theorem toNat_truncate_div : n.truncate.address.toNat / n.size = n.address.toNat / n.size := by
  have h : n.truncate.address.toNat = n.address.toNat / n.size * n.size := n.toNat_first
  rw [h, Nat.mul_div_cancel _ n.size_pos]

/-- **Clearing host bits** changes no network. -/
theorem contains_truncate : n.truncate.Contains a ↔ n.Contains a := by
  rw [contains_iff, contains_iff, size_truncate, toNat_truncate_div]

theorem isSubnetOf_truncate : n.truncate.IsSubnetOf m ↔ n.IsSubnetOf m :=
  forall_congr' fun _ => imp_congr_left n.contains_truncate

/-- Clearing host bits leaves all other bits as they are. -/
theorem testBit_truncate {k : Nat} (hk : 32 - n.length ≤ k) :
    n.truncate.address.toNat.testBit k = n.address.toNat.testBit k := by
  have h : n.truncate.address.toNat =
      n.address.toNat / 2 ^ (32 - n.length) * 2 ^ (32 - n.length) := n.toNat_first
  rw [h, Nat.testBit_mul_two_pow, decide_eq_true hk, Bool.true_and, Nat.testBit_div_two_pow,
    Nat.sub_add_cancel hk]

/-- **A network is in another one** if it is as long and its address is in there. -/
theorem isSubnetOf_iff : n.IsSubnetOf m ↔ m.length ≤ n.length ∧ m.Contains n.address := by
  constructor
  · intro h
    refine ⟨?_, h _ n.contains_address⟩
    -- the two ends of the network lie in the other one, which is therefore not smaller
    have hfirst := (h _ n.contains_first).1
    have hlast := (h _ n.contains_last).2
    rw [toNat_first, toNat_first] at hfirst
    rw [toNat_last, toNat_last] at hlast
    have hnpos := n.size_pos
    have hmpos := m.size_pos
    have hsize : n.size ≤ m.size := by omega
    have hexp := (Nat.pow_le_pow_iff_right (by decide : 1 < 2)).1 hsize
    have hn := n.length_le
    have hm := m.length_le
    omega
  · rintro ⟨hlen, haddress⟩ a ha
    obtain ⟨k, hk⟩ : n.size ∣ m.size := Nat.pow_dvd_pow 2 (Nat.sub_le_sub_left hlen 32)
    rw [contains_iff] at ha haddress ⊢
    rw [hk, ← Nat.div_div_eq_div_mul, ha, Nat.div_div_eq_div_mul, ← hk, haddress]

end Network

/-! ### Constraints -/

/-- The value of a number of a route. -/
def Route.number (r : Route) : NumberField → Nat
  | .localPreference => r.localPreference.toNat
  | .adminDistance => r.adminDistance.toNat
  | .metric => r.metric.toNat
  | .tag => r.tag.toNat
  | .clusterListLength => r.clusterList.size

namespace Constraint

mutual
/-- What a constraint says of a route and its environment. -/
def Holds (r : Route) (e : Environment) : Constraint → Prop
  | .protocol p => r.protocol = p
  | .originType o => r.originType = o
  | .within field min max =>
    (∀ lo ∈ min, lo.toNat ≤ r.number field) ∧ ∀ hi ∈ max, r.number field ≤ hi.toNat
  | .prefixWithin network minLength maxLength =>
    r.network.IsSubnetOf network ∧ (minLength.map UInt8.toNat).getD 0 ≤ r.network.length ∧
      r.network.length ≤ (maxLength.map UInt8.toNat).getD 32
  | .nextHopWithin network => network.Contains r.nextHop.address
  | .community (some c) none => c ∈ r.communities.toList
  | .community none (some pattern) => ∃ a, matchingCommunities pattern = .ok a ∧
      ∃ c ∈ r.communities.toList, a.accepts (communityText c) = true
  | .community _ _ => False
  | .asPath pattern => ∃ a, matchingAsPaths pattern = .ok a ∧
      a.accepts (asPathText r.asPath) = true
  | .nextHopInterface name => r.nextHop.interface? = some name
  | .track name => name ∈ e.successfulTracks
  | .sourceVrf name => e.sourceVrf = some name
  | .not c => ¬Holds r e c
  | .allOf cs => AllHold r e cs
  | .anyOf cs => AnyHolds r e cs

/-- Every constraint of a list holds. -/
def AllHold (r : Route) (e : Environment) : List Constraint → Prop
  | [] => True
  | c :: cs => Holds r e c ∧ AllHold r e cs

/-- Some constraint of a list holds. -/
def AnyHolds (r : Route) (e : Environment) : List Constraint → Prop
  | [] => False
  | c :: cs => Holds r e c ∨ AnyHolds r e cs
end

variable {r : Route} {e : Environment}

theorem allHold_iff (cs : List Constraint) : AllHold r e cs ↔ ∀ c ∈ cs, c.Holds r e := by
  induction cs with
  | nil => simp [AllHold]
  | cons c cs ih => rw [AllHold, ih, List.forall_mem_cons]

mutual
/-- **No constraint sees host bits** of the prefix. -/
theorem holds_truncate : ∀ c : Constraint,
    c.Holds { r with network := r.network.truncate } e ↔ c.Holds r e
  | .protocol _ => Iff.rfl
  | .originType _ => Iff.rfl
  | .within field _ _ => by cases field <;> exact Iff.rfl
  | .prefixWithin network _ _ => and_congr_left' (r.network.isSubnetOf_truncate network)
  | .nextHopWithin _ => Iff.rfl
  | .community (some _) none => Iff.rfl
  | .community none (some _) => Iff.rfl
  | .community none none => Iff.rfl
  | .community (some _) (some _) => Iff.rfl
  | .asPath _ => Iff.rfl
  | .nextHopInterface _ => Iff.rfl
  | .track _ => Iff.rfl
  | .sourceVrf _ => Iff.rfl
  | .not c => not_congr (holds_truncate c)
  | .allOf cs => allHold_truncate cs
  | .anyOf cs => anyHolds_truncate cs

theorem allHold_truncate : ∀ cs : List Constraint,
    AllHold { r with network := r.network.truncate } e cs ↔ AllHold r e cs
  | [] => Iff.rfl
  | c :: cs => and_congr (holds_truncate c) (allHold_truncate cs)

theorem anyHolds_truncate : ∀ cs : List Constraint,
    AnyHolds { r with network := r.network.truncate } e cs ↔ AnyHolds r e cs
  | [] => Iff.rfl
  | c :: cs => or_congr (holds_truncate c) (anyHolds_truncate cs)
end

end Constraint
end RouteSolver
