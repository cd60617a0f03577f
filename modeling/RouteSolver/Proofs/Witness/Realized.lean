/-
# Communities realize what is entailed

A model entails some of the variables of communities, and what it is decoded to has a community for
each of these: the least one of a class, or the one that the variable stands for. This is exact, for
cubes and for all other diagrams (`NameList.communities_realized`): a class holds a decoded
community exactly if its variable is entailed, so that no representative strays into another class;
a community that is named has been decoded exactly if its own variable is entailed; and every
decoded community comes from a single variable.

Classes and named communities are numbered in one row. The number that tells a community from others
is the same notion for both (`Domain.Classifies`), and there is one at most
(`Domain.Classifies.unique`).
-/

import RouteSolver.Proofs.Encoding.Again
import RouteSolver.Proofs.Witness.Classes

namespace RouteSolver

open Diagram Delimited Utf8

/-! ### Numbers of communities -/

/-- The community goes by the number: its text is in the class that has the number, or it is the
named community that has it. -/
inductive Domain.Classifies (d : Domain) : Nat → Community → Prop
  | part {i : Nat} {a : Automaton} {c : Community} (ha : d.standardCommunities.parts[i]? = some a)
    (hc : a.accepts (communityText c) = true) : d.Classifies i c
  | other {j : Nat} {c : Community} (hj : d.otherCommunities[j]? = some c) :
    d.Classifies (d.standardCommunities.size + j) c

namespace Domain

variable {d : Domain} {i j k : Nat} {a : Automaton} {b c : Community}

/-- There are no classes among the numbers of named communities. -/
theorem parts_size_add (d : Domain) (j : Nat) :
    d.standardCommunities.parts[d.standardCommunities.size + j]? = none :=
  List.getElem?_eq_none (Nat.le_add_right _ _)

theorem classifies_part_iff (ha : d.standardCommunities.parts[i]? = some a) :
    d.Classifies i c ↔ a.accepts (communityText c) = true := by
  refine ⟨fun h => ?_, .part ha⟩
  cases h with
  | part hb hc =>
    obtain rfl := Option.some.inj (ha.symm.trans hb)
    exact hc
  | @other j _ hj =>
    rw [parts_size_add d j] at ha
    cases ha

theorem classifies_other_iff (hj : d.otherCommunities[j]? = some c) :
    d.Classifies (d.standardCommunities.size + j) b ↔ b = c := by
  refine ⟨fun h => ?_, fun h => h ▸ .other hj⟩
  generalize hi : d.standardCommunities.size + j = i at h
  cases h with
  | part hb hc =>
    rw [← hi, parts_size_add d j] at hb
    cases hb
  | @other k _ hk =>
    obtain rfl : j = k := by omega
    exact Option.some.inj (hk.symm.trans hj)

theorem Classifies.lt (h : d.Classifies i c) : i < d.communityCount := by
  cases h with
  | part ha _ => exact Nat.lt_add_right _ (List.getElem?_eq_some_iff.1 ha).1
  | other hj => exact Nat.add_lt_add_left (List.getElem?_eq_some_iff.1 hj).1 _

/-- **A community goes by one number** at most. -/
theorem Classifies.unique (hd : d.Valid) (h : d.Classifies i c) (h' : d.Classifies k c) :
    i = k := by
  cases h with
  | part ha hc =>
    cases h' with
    | part hb hc' => exact hd.communities.eq_of_accepts ha hb hc hc'
    | other hj =>
      obtain ⟨s, rfl⟩ := Decoding.isStandard_of_part hd ha hc
      exact absurd hj (Decoding.not_standard_of_other hd)
  | other hj =>
    cases h' with
    | part hb hc =>
      obtain ⟨s, rfl⟩ := Decoding.isStandard_of_part hd hb hc
      exact absurd hj (Decoding.not_standard_of_other hd)
    | other hk =>
      have hlt := (List.getElem?_eq_some_iff.1 hj).1
      rw [(List.getElem?_inj hlt hd.others_nodup).1 (hj.trans hk.symm)]

/-- A flag of a set of communities says whether one of them goes by the number. -/
theorem communityFlags_iff (hi : i < d.communityCount) {set : AscendingSet Community} :
    (communityFlags d set)[i]? = some true ↔ ∃ c ∈ set.toList, d.Classifies i c := by
  rcases Nat.lt_or_ge i d.standardCommunities.size with hlt | hge
  · have ha := List.getElem?_eq_getElem (l := d.standardCommunities.parts) hlt
    simp only [communityFlags_part ha, classifies_part_iff ha]
  · obtain ⟨j, rfl⟩ := Nat.exists_eq_add_of_le hge
    have hj := List.getElem?_eq_getElem (Nat.lt_of_add_lt_add_left hi)
    simp only [communityFlags_other hj, classifies_other_iff hj, exists_eq_right]

end Domain

/-! ### What a model entails -/

/-- There is a variable of communities with the number, and the model entails it. -/
def Layout.Entails (l : Layout) (s : Store) (m : Ref) (i : Nat) : Prop :=
  ∃ x, l.communities[i]? = some x ∧ s.entails m x = true

section
variable {d : Domain} {s : Store} {m : Ref} {l : Layout} {i : Nat} {set : AscendingSet Community}

theorem Layout.entails_iff_flag :
    l.Entails s m i ↔ (l.communities.map (s.entails m))[i]? = some true := by
  rw [List.getElem?_map, Option.map_eq_some_iff]
  rfl

/-- **A variable is entailed** if it is true wherever the model is. -/
theorem Layout.Over.entails_iff (hl : l.Over d s) (hs : s.Valid) (hm : s.Has m)
    (hi : i < d.communityCount) :
    l.Entails s m i ↔ ∀ v, s.eval m v = true → v (Layout.listStart + i) = true := by
  obtain ⟨x, hx, hdenotes⟩ := hl.communities.exists_denotes hi
  rw [← hs.entails_iff hm.denotes hdenotes]
  constructor
  · rintro ⟨y, hy, hentails⟩
    rwa [Option.some.inj (hx.symm.trans hy)]
  · exact fun hentails => ⟨x, hx, hentails⟩

/-- Where a variable of communities is asked for and besides that only one of two protocols, no
other variable of communities is entailed. -/
theorem Layout.Over.entails_iff_eq {k : Nat} (hl : l.Over d s) (hs : s.Valid)
    (hm : s.Denotes m fun v => v (Layout.listStart + k) &&
      (v Layout.protocolStart || v (Layout.protocolStart + 1)))
    (hi : i < d.communityCount) : l.Entails s m i ↔ i = k := by
  rw [hl.entails_iff hs hm.has hi]
  constructor
  · intro h
    -- with the first protocol and the variable that is asked for, and no other, the model is true
    let v : Valuation := fun j => j == Layout.protocolStart || j == Layout.listStart + k
    have htrue : s.eval m v = true := by
      rw [hm.eval_eq]
      simp [v]
    have hv := h v htrue
    have hstart : Layout.protocolStart < Layout.listStart := by decide
    simp only [v, Bool.or_eq_true, beq_iff_eq] at hv
    omega
  · rintro rfl v hv
    rw [hm.eval_eq, Bool.and_eq_true] at hv
    exact hv.1

/-- Such a diagram can be built: it leaves open which of two protocols a route has. -/
theorem Layout.Over.exists_entails_iff_eq {k : Nat} (hl : l.Over d s) (hs : s.Reachable)
    (hk : k < d.communityCount) : ∃ m t, t.Reachable ∧ s ≤ t ∧ t.Has m ∧
      ∀ i, i < d.communityCount → (l.Entails t m i ↔ i = k) := by
  obtain ⟨x, -, hx⟩ := hl.communities.exists_denotes hk
  obtain ⟨p, -, hp⟩ := hl.protocol.exists_denotes (show 0 < Protocol.all.length by decide)
  obtain ⟨q, -, hq⟩ := hl.protocol.exists_denotes (show 1 < Protocol.all.length by decide)
  obtain ⟨hu, hsu, ho⟩ := yields_disj hp hq hs.valid
  obtain ⟨ht, hut, hm⟩ := yields_conj (hx.mono hs.valid hsu) ho hu
  have hdisj : (disj p q s).2.Reachable := by
    refine .step (.disj p q) hs ?_
    rintro r (_ | ⟨_, _ | ⟨_, ⟨⟩⟩⟩)
    · exact hp.has
    · exact hq.has
  have hconj : (conj x (disj p q s).1 (disj p q s).2).2.Reachable := by
    refine .step (.conj x (disj p q s).1) hdisj ?_
    rintro r (_ | ⟨_, _ | ⟨_, ⟨⟩⟩⟩)
    · exact hx.has.mono hsu
    · exact ho.has
  have hlater := hl.mono hs.valid (hsu.trans hut)
  exact ⟨_, _, hconj, hsu.trans hut, hm.has, fun i hi => hlater.entails_iff_eq ht hm hi⟩

namespace Decoding

/-- The flags of a set are what the model entails if they are for every number. -/
theorem communityFlags_eq_entailed_iff (hlen : l.communities.length = d.communityCount) :
    communityFlags d set = l.communities.map (s.entails m) ↔
      ∀ i, i < d.communityCount → (l.Entails s m i ↔ ∃ c ∈ set.toList, d.Classifies i c) := by
  constructor
  · intro heq i hi
    rw [Layout.entails_iff_flag, ← heq, Domain.communityFlags_iff hi]
  · intro h
    refine eq_of_true_iff (by rw [length_communityFlags, List.length_map, hlen]) fun i hi => ?_
    rw [length_communityFlags] at hi
    rw [Domain.communityFlags_iff hi, ← h i hi, Layout.entails_iff_flag]

variable (hd : d.Valid) (hlen : l.communities.length = d.communityCount)
include hd hlen

/-- **Decoded communities go by the entailed numbers**, and by no other ones. -/
theorem entails_iff_of_communities (h : communities s m l d = .ok set)
    (hi : i < d.communityCount) : l.Entails s m i ↔ ∃ c ∈ set.toList, d.Classifies i c := by
  obtain ⟨cs, hcs, hset⟩ := (communities_eq_ok_iff_entailed hlen hd).1 h
  have hflags := communityFlags_of_decode hd ((List.length_map _).trans hlen) hcs hset
  exact (communityFlags_eq_entailed_iff hlen).1 hflags i hi

/-- **Every decoded community goes by some number**, and is the least one in the class if the number
is that of a class. -/
theorem exists_classifies_of_communities (h : communities s m l d = .ok set) {c : Community}
    (hc : c ∈ set.toList) : ∃ i, d.Classifies i c ∧
      ∀ a, d.standardCommunities.parts[i]? = some a → a.IsLeast (bytes (communityText c)) := by
  obtain ⟨cs, hcs, rfl⟩ := (communities_eq_ok_iff_entailed hlen hd).1 h
  rw [AscendingSet.mem_ofList, List.mem_append, mem_pick_others] at hc
  obtain hc | ⟨j, hj, -⟩ := hc
  · obtain ⟨⟨i, a⟩, hi, t, rfl, hleast⟩ := exists_left_of_mem hcs hc
    obtain ⟨ha, -⟩ := mem_pick_zero.1 hi
    exact ⟨i, .part ha hleast.1, fun b hb => Option.some.inj (ha.symm.trans hb) ▸ hleast⟩
  · refine ⟨_, .other hj, fun a ha => ?_⟩
    rw [Domain.parts_size_add d j] at ha
    cases ha

/-- **Communities that are the least of their classes** are decoded if exactly their numbers are
entailed. -/
theorem communities_eq_ok_of_entails
    (hleast : ∀ t, .standard t ∈ set.toList → ∀ a ∈ d.standardCommunities.parts,
      a.accepts (ofCommunity t) = true → a.IsLeast (bytes (ofCommunity t)))
    (hother : ∀ c ∈ set.toList, c.isStandard = false → c ∈ d.otherCommunities)
    (hentails : ∀ i, i < d.communityCount →
      (l.Entails s m i ↔ ∃ c ∈ set.toList, d.Classifies i c)) :
    communities s m l d = .ok set :=
  (communities_eq_ok_iff_entailed hlen hd).2 (communities_of_flags hd hleast hother
    ((communityFlags_eq_entailed_iff hlen).2 hentails).symm)

end Decoding

end

namespace NameList

/-- **Decoded communities realize what is entailed**, exactly: over the domain of any names and for
any diagram as a model. Entailed is what is true wherever the model is. The variable of a class is
entailed exactly if the class has a decoded community in it; that of an extended or large community
among the names, exactly if the community has been decoded. And every decoded community goes by one
number, which is entailed, and is the least one in the class if the number is that of a class. -/
theorem communities_realized {names : NameList} {d : Domain} (hd : names.domain = .ok d)
    {s₀ s₁ s : Store} {l : Layout} (hs₀ : s₀.Reachable)
    (hl : (Layout.ofDomain d).run s₀ = (l, s₁)) (hs : s.Reachable) (hle : s₁ ≤ s) {m : Ref}
    (hm : s.Has m) {set : AscendingSet Community}
    (hset : Decoding.communities s m l d = .ok set) :
    (∀ i, i < d.communityCount →
      (l.Entails s m i ↔ ∀ v, s.eval m v = true → v (Layout.listStart + i) = true)) ∧
    (∀ i a, d.standardCommunities.parts[i]? = some a →
      (l.Entails s m i ↔ ∃ c ∈ set.toList, a.accepts (communityText c) = true)) ∧
    (∀ c, names.Lists (.literal c) → c.isStandard = false →
      ∃ i, d.communities? (.literal c) = some [i] ∧ (l.Entails s m i ↔ c ∈ set.toList)) ∧
    ∀ c ∈ set.toList, ∃ i, l.Entails s m i ∧ d.Classifies i c ∧ (∀ k, d.Classifies k c → k = i) ∧
      ∀ a, d.standardCommunities.parts[i]? = some a → a.IsLeast (bytes (communityText c)) := by
  have hvalid := domain_valid hd
  obtain ⟨hs₁, -, hover⟩ := (Layout.yields_ofDomain d).of_run hs₀.valid hl
  have hover := hover.mono hs₁ hle
  have hlen := hover.communities.length_eq
  have hentails := fun {i} hi => Decoding.entails_iff_of_communities (i := i) hvalid hlen hset hi
  refine ⟨fun i hi => hover.entails_iff hs.valid hm hi, fun i a ha => ?_, fun c hc hother => ?_,
    fun c hc => ?_⟩
  · have hi : i < d.communityCount := Nat.lt_add_right _ (List.getElem?_eq_some_iff.1 ha).1
    simp only [hentails hi, Domain.classifies_part_iff ha]
  · obtain ⟨ns, hns⟩ := exists_communities?_of_lists hd hc
    obtain ⟨j, rfl, hj⟩ := other_of_communities? hother hns
    refine ⟨_, hns, ?_⟩
    have hi := (Domain.Classifies.other hj).lt
    simp only [hentails hi, Domain.classifies_other_iff hj, exists_eq_right]
  · obtain ⟨i, hi, hleast⟩ := Decoding.exists_classifies_of_communities hvalid hlen hset hc
    exact ⟨i, (hentails hi.lt).2 ⟨c, hc, hi⟩, hi, fun k hk => hk.unique hvalid hi, hleast⟩

/-- A large community by itself. -/
def largeNames : NameList := ⟨[(Community.large ⟨1, 2, 3⟩).text], [], [], [], [], []⟩

theorem exists_domain_largeNames : ∃ d, largeNames.domain = .ok d := by
  have hread : readCommunities largeNames.communities = .ok [.large ⟨1, 2, 3⟩] := by
    unfold largeNames readCommunities
    rw [Community.read?_text]
    rfl
  unfold domain
  rw [hread]
  exact ⟨_, rfl⟩

/-- The model asks for the large community and for one of two protocols, without saying for which.
It is decoded to that community alone, whose variable is the only one that is entailed. -/
theorem communities_realized_large : ∃ d l s m t, largeNames.domain = .ok d ∧
    (Layout.ofDomain d).run .empty = (l, s) ∧ s ≤ t ∧
    Decoding.communities t m l d = .ok (.single (.large ⟨1, 2, 3⟩)) ∧
    (∃ i, d.communities? (.literal (.large ⟨1, 2, 3⟩)) = some [i] ∧ l.Entails t m i) ∧
    ∀ i a, d.standardCommunities.parts[i]? = some a → ¬l.Entails t m i := by
  obtain ⟨d, hd⟩ := exists_domain_largeNames
  have hvalid := domain_valid hd
  have hlists : largeNames.Lists (.literal (.large ⟨1, 2, 3⟩)) :=
    .literal List.mem_cons_self (Community.read?_text _)
  obtain ⟨ns, hns⟩ := exists_communities?_of_lists hd hlists
  obtain ⟨j, -, hj⟩ := other_of_communities? rfl hns
  rcases hl : (Layout.ofDomain d).run .empty with ⟨l, s⟩
  have hs := Layout.reachable_of_ofDomain .empty hl
  obtain ⟨-, -, hover⟩ := (Layout.yields_ofDomain d).of_run Store.valid_empty hl
  obtain ⟨m, t, ht, hst, hm, hentails⟩ :=
    hover.exists_entails_iff_eq hs (Domain.Classifies.other hj).lt
  have hset : Decoding.communities t m l d = .ok (.single (.large ⟨1, 2, 3⟩)) := by
    refine Decoding.communities_eq_ok_of_entails hvalid hover.communities.length_eq
      (fun t hc => ?_) (fun c hc _ => ?_) fun i hi => (hentails i hi).trans ⟨?_, ?_⟩
    · cases List.mem_singleton.1 hc
    · exact List.mem_singleton.1 hc ▸ List.mem_of_getElem? hj
    · rintro rfl
      exact ⟨_, List.mem_singleton_self _, .other hj⟩
    · rintro ⟨c, hc, h⟩
      obtain rfl := List.mem_singleton.1 hc
      exact h.unique hvalid (.other hj)
  obtain ⟨-, hpart, hother, -⟩ := communities_realized hd .empty hl ht hst hm hset
  refine ⟨d, l, s, m, t, hd, hl, hst, hset, ?_, fun i a ha h => ?_⟩
  · obtain ⟨i, hi, hiff⟩ := hother _ hlists rfl
    exact ⟨i, hi, hiff.2 (List.mem_singleton_self _)⟩
  · obtain ⟨c, hc, hac⟩ := (hpart i a ha).1 h
    obtain rfl := List.mem_singleton.1 hc
    obtain ⟨t, ht⟩ := Decoding.isStandard_of_part hvalid ha hac
    cases ht

end NameList
end RouteSolver
