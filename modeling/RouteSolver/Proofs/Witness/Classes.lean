/-
# Decoding communities and AS paths

The decoders of communities and of AS paths, as functions of the blocks of a valuation. Whatever
they give has exactly the flags that it has been decoded from (`communityFlags_of_decode`,
`asPathFlags_of_decode`): the classes are disjoint, so the member that represents a class is in no
other one. And values that represent their classes come back as they were
(`communities_of_flags`, `asPath_of_flags`).
-/

import RouteSolver.Proofs.Route.AscendingSet
import RouteSolver.Proofs.Witness.Representative
import RouteSolver.Proofs.Witness.Selection

namespace RouteSolver

open Diagram Delimited Utf8 RouteSolver.Partition

/-- A part of all communities accepts the texts of standard communities only. -/
theorem isStandard_of_accepts {c : Community}
    (h : allCommunities.acceptsBytes (bytes (communityText c)) = true) :
    ∃ s, c = .standard s := by
  obtain ⟨m, n, -, -, hbytes⟩ := (acceptsBytes_allCommunities _).1 h
  have hascii : bytes (String.ofList (communityChars m n)) = ascii (communityChars m n) := by
    rw [bytes_eq_ascii] <;> rw [String.toList_ofList]
    exact isAscii_communityChars m n
  have htext := congrArg String.toList (bytes_injective (hbytes.trans hascii.symm))
  have hchars : '^' :: (c.text.toList ++ ['$']) = communityChars m n := by
    rw [communityText, String.toList_append, String.toList_append, String.toList_ofList] at htext
    exact htext
  have hc : c.text = String.ofList (colonNumbers m n) := by
    rw [← String.toList_inj, String.toList_ofList]
    exact List.append_left_injective _ (List.cons.inj hchars).2
  obtain ⟨s, hs, -⟩ := Community.read?_numbers (hc ▸ Community.read?_text c)
  exact ⟨s, hs⟩

/-- Every class of the domain has a representative that can be written down. -/
structure Domain.Readable (d : Domain) : Prop where
  communities : ∀ a ∈ d.standardCommunities.parts, ∃ c, a.IsLeast (bytes (ofCommunity c))
  asPaths : ∀ a ∈ d.asPaths.parts, ∃ ns, a.IsLeast (bytes (asPathText (.ofNumbers ns)))

/-- Every class that a valuation holds has a representative that can be written down. -/
structure Domain.ReadableAt (d : Domain) (v : Valuation) : Prop where
  communities : ∀ (i : Nat) (a : Automaton), d.standardCommunities.parts[i]? = some a →
    v (Layout.listStart + i) = true → ∃ c, a.IsLeast (bytes (ofCommunity c))
  asPaths : ∀ (i : Nat) (a : Automaton), d.asPaths.parts[i]? = some a →
    v (d.asPathStart + i) = true → ∃ ns, a.IsLeast (bytes (asPathText (.ofNumbers ns)))

theorem Domain.Readable.readableAt {d : Domain} (h : d.Readable) (v : Valuation) :
    d.ReadableAt v where
  communities _ a ha _ := h.communities a (List.mem_of_getElem? ha)
  asPaths _ a ha _ := h.asPaths a (List.mem_of_getElem? ha)

namespace Decoding

/-- The community is standard, and its text is a member of the class. -/
def Belongs (p : Nat × Automaton) (c : Community) : Prop :=
  ∃ s, c = .standard s ∧ p.2.accepts (ofCommunity s) = true

/-- The community is standard, and its text is the least member of the class. -/
def Represents (p : Nat × Automaton) (c : Community) : Prop :=
  ∃ s, c = .standard s ∧ p.2.IsLeast (bytes (ofCommunity s))

theorem Represents.belongs {p : Nat × Automaton} {c : Community} (h : Represents p c) :
    Belongs p c := by
  obtain ⟨s, rfl, hleast⟩ := h
  exact ⟨s, rfl, hleast.1⟩

section
variable {d : Domain} (hd : d.Valid) {flags : List Bool}
include hd

/-- What `communities` makes of a block. -/
theorem representatives_pick_iff {cs : List Community} :
    representatives (pick 0 d.standardCommunities.parts flags) = .ok cs ↔
      List.Forall₂ Represents (pick 0 d.standardCommunities.parts flags) cs := by
  have hmem : ∀ p ∈ pick 0 d.standardCommunities.parts flags,
      p.2 ∈ d.standardCommunities.parts := fun p hp =>
    List.mem_of_getElem? (mem_pick_zero.1 hp).1
  exact representatives_eq_ok_iff (fun p hp => hd.communities.valid _ (hmem p hp))
    (fun p hp => hd.communities.nonempty _ (hmem p hp))
    fun p hp w hw => (hd.communities.covers w).2 ⟨_, hmem p hp, hw⟩

omit hd in
theorem mem_pick_others {c : Community} :
    c ∈ (pick d.standardCommunities.parts.length d.otherCommunities
        (flags.drop d.standardCommunities.parts.length)).map (·.2) ↔
      ∃ j : Nat, d.otherCommunities[j]? = some c ∧
        flags[d.standardCommunities.parts.length + j]? = some true := by
  rw [List.mem_map]
  constructor
  · rintro ⟨⟨i, c⟩, hc, rfl⟩
    obtain ⟨j, -, hj, hflag⟩ := mem_pick.1 hc
    rw [List.getElem?_drop] at hflag
    exact ⟨j, hj, hflag⟩
  · rintro ⟨j, hj, hflag⟩
    rw [← List.getElem?_drop] at hflag
    exact ⟨(_, c), mem_pick.2 ⟨j, rfl, hj, hflag⟩, rfl⟩

omit hd in
/-- The flags of a set are right if they are right for every class and every other community. -/
theorem communityFlags_eq (hlen : flags.length = d.communityCount) {set : AscendingSet Community}
    (hpart : ∀ (i : Nat) (a : Automaton), d.standardCommunities.parts[i]? = some a →
      ((∃ c ∈ set.toList, a.accepts (communityText c) = true) ↔ flags[i]? = some true))
    (hother : ∀ (j : Nat) (c : Community), d.otherCommunities[j]? = some c →
      (c ∈ set.toList ↔ flags[d.standardCommunities.parts.length + j]? = some true)) :
    communityFlags d set = flags := by
  refine eq_of_true_iff ((length_communityFlags d set).trans hlen.symm) fun i hi => ?_
  rw [length_communityFlags, Domain.communityCount] at hi
  rcases Nat.lt_or_ge i d.standardCommunities.parts.length with hlt | hge
  · have ha := List.getElem?_eq_getElem hlt
    rw [communityFlags_part ha, hpart i _ ha]
  · obtain ⟨j, rfl⟩ := Nat.exists_eq_add_of_le hge
    have hj := List.getElem?_eq_getElem (Nat.lt_of_add_lt_add_left hi)
    exact (communityFlags_other hj).trans (hother j _ hj)

/-- A member of a class is standard. -/
theorem isStandard_of_part {i : Nat} {a : Automaton} {c : Community}
    (ha : d.standardCommunities.parts[i]? = some a) (hc : a.accepts (communityText c) = true) :
    ∃ s, c = .standard s :=
  isStandard_of_accepts ((hd.communities.covers _).2 ⟨a, List.mem_of_getElem? ha, hc⟩)

theorem not_standard_of_other {j : Nat} {s : StandardCommunity} :
    d.otherCommunities[j]? ≠ some (.standard s) := fun h =>
  Bool.noConfusion (hd.others_notStandard _ (List.mem_of_getElem? h))

/-- **Members of some classes**, together with some of the other communities, have the flags of
these classes and communities. -/
theorem communityFlags_of_belong {cs : List Community} {set : AscendingSet Community}
    (hlen : flags.length = d.communityCount)
    (hcs : List.Forall₂ Belongs (pick 0 d.standardCommunities.parts flags) cs)
    (hset : set = .ofList (cs ++ (pick d.standardCommunities.parts.length d.otherCommunities
      (flags.drop d.standardCommunities.parts.length)).map (·.2))) :
    communityFlags d set = flags := by
  have hmem : ∀ c, c ∈ set.toList ↔ c ∈ cs ∨ ∃ j : Nat, d.otherCommunities[j]? = some c ∧
      flags[d.standardCommunities.parts.length + j]? = some true := fun c => by
    rw [hset, AscendingSet.mem_ofList, List.mem_append, mem_pick_others]
  refine communityFlags_eq hlen (fun i a ha => ?_) fun j c hj => ?_
  · constructor
    · rintro ⟨c, hc, hac⟩
      obtain ⟨s, rfl⟩ := isStandard_of_part hd ha hac
      obtain ⟨⟨k, b⟩, hk, s', hs, hmember⟩ := exists_left_of_mem hcs
        (((hmem _).1 hc).resolve_right fun ⟨j, hj, _⟩ => not_standard_of_other hd hj)
      obtain rfl := Community.standard.inj hs
      obtain ⟨hb, hflag⟩ := mem_pick_zero.1 hk
      -- a community is in one class only
      rw [hd.communities.eq_of_accepts ha hb hac hmember]
      exact hflag
    · intro hflag
      obtain ⟨c, hc, s, rfl, hmember⟩ := exists_right_of_mem hcs (mem_pick_zero.2 ⟨ha, hflag⟩)
      exact ⟨_, (hmem _).2 (.inl hc), hmember⟩
  · constructor
    · intro hc
      rcases (hmem c).1 hc with hc | ⟨k, hk, hflag⟩
      · obtain ⟨p, -, s, rfl, -⟩ := exists_left_of_mem hcs hc
        exact absurd hj (not_standard_of_other hd)
      · have hlt := (List.getElem?_eq_some_iff.1 hj).1
        rwa [(List.getElem?_inj hlt hd.others_nodup).1 (hj.trans hk.symm)]
    · exact fun hflag => (hmem c).2 (.inr ⟨j, hj, hflag⟩)

/-- **Decoded communities** have the flags that they have been decoded from. -/
theorem communityFlags_of_decode {cs : List Community} {set : AscendingSet Community}
    (hlen : flags.length = d.communityCount)
    (hcs : List.Forall₂ Represents (pick 0 d.standardCommunities.parts flags) cs)
    (hset : set = .ofList (cs ++ (pick d.standardCommunities.parts.length d.otherCommunities
      (flags.drop d.standardCommunities.parts.length)).map (·.2))) :
    communityFlags d set = flags :=
  communityFlags_of_belong hd hlen (hcs.imp fun _ _ => Represents.belongs) hset

/-- **Communities that represent their classes** come back from their flags. -/
theorem communities_of_flags {set : AscendingSet Community}
    (hstandard : ∀ s, .standard s ∈ set.toList → ∀ a ∈ d.standardCommunities.parts,
      a.accepts (ofCommunity s) = true → a.IsLeast (bytes (ofCommunity s)))
    (hother : ∀ c ∈ set.toList, c.isStandard = false → c ∈ d.otherCommunities)
    (hflags : flags = communityFlags d set) :
    ∃ cs, List.Forall₂ Represents (pick 0 d.standardCommunities.parts flags) cs ∧
      set = .ofList (cs ++ (pick d.standardCommunities.parts.length d.otherCommunities
        (flags.drop d.standardCommunities.parts.length)).map (·.2)) := by
  subst hflags
  -- every class that holds is represented by a member of the set
  have hpart : ∀ p ∈ pick 0 d.standardCommunities.parts (communityFlags d set),
      ∃ c, Represents p c ∧ c ∈ set.toList := by
    rintro ⟨i, a⟩ hp
    obtain ⟨ha, hflag⟩ := mem_pick_zero.1 hp
    obtain ⟨c, hc, hac⟩ := (communityFlags_part ha).1 hflag
    obtain ⟨s, rfl⟩ := isStandard_of_part hd ha hac
    exact ⟨_, ⟨s, rfl, hstandard s hc a (List.mem_of_getElem? ha) hac⟩, hc⟩
  obtain ⟨cs, hcs⟩ := exists_forall₂ hpart
  refine ⟨cs, hcs.imp fun _ _ h => h.1, AscendingSet.ext_mem fun c => ?_⟩
  rw [AscendingSet.mem_ofList, List.mem_append, mem_pick_others]
  constructor
  · intro hc
    cases hs : c.isStandard with
    | false =>
      obtain ⟨j, hj⟩ := List.mem_iff_getElem?.1 (hother c hc hs)
      exact .inr ⟨j, hj, (communityFlags_other hj).2 hc⟩
    | true =>
      obtain ⟨s, rfl⟩ : ∃ s, c = .standard s := by
        cases c with
        | standard s => exact ⟨s, rfl⟩
        | extended s => exact nomatch hs
        | large s => exact nomatch hs
      obtain ⟨a, ha, has⟩ := (hd.communities.covers _).1 (accepts_ofCommunity s)
      obtain ⟨i, hi⟩ := List.mem_iff_getElem?.1 ha
      have hflag := (communityFlags_part hi).2 ⟨_, hc, has⟩
      obtain ⟨b, hb, ⟨t, rfl, hleast⟩, -⟩ := exists_right_of_mem hcs (mem_pick_zero.2 ⟨hi, hflag⟩)
      have htext : communityText (.standard s) = communityText (.standard t) :=
        bytes_injective ((hstandard s hc a ha has).eq hleast)
      exact .inl (communityText_injective htext ▸ hb)
  · rintro (hc | ⟨j, hj, hflag⟩)
    · obtain ⟨p, -, -, hset⟩ := exists_left_of_mem hcs hc
      exact hset
    · exact (communityFlags_other hj).1 hflag

/-! ### AS paths -/

/-- The path has single numbers, and its text is the least member of the class. -/
def RepresentsPath (a : Automaton) (p : AsPath) : Prop :=
  ∃ ms, p = .ofNumbers ms ∧ a.IsLeast (bytes (asPathText (.ofNumbers ms)))

variable {i : Nat} {a : Automaton} {p : AsPath}

/-- **A member of a class** has the flags of the class. -/
theorem asPathFlags_of_member (hlen : flags.length = d.asPaths.size)
    (hpick : pick 0 d.asPaths.parts flags = [(i, a)]) (hp : a.accepts (asPathText p) = true) :
    asPathFlags d p = flags := by
  have hmem : (i, a) ∈ pick 0 d.asPaths.parts flags := hpick ▸ List.mem_singleton_self _
  obtain ⟨ha, hflag⟩ := mem_pick_zero.1 hmem
  refine eq_of_true_iff ((length_asPathFlags d _).trans hlen.symm) fun j hj => ?_
  rw [length_asPathFlags] at hj
  have hb := List.getElem?_eq_getElem hj
  rw [asPathFlags_part hb]
  constructor
  · intro hacc
    rw [hd.asPaths.eq_of_accepts hb ha hacc hp]
    exact hflag
  · intro hj
    have hjb := mem_pick_zero.2 ⟨hb, hj⟩
    rw [hpick, List.mem_singleton, Prod.mk.injEq] at hjb
    rw [hjb.2]
    exact hp

/-- **A decoded path** has the flags that it has been decoded from. -/
theorem asPathFlags_of_decode (hlen : flags.length = d.asPaths.size)
    (hpick : pick 0 d.asPaths.parts flags = [(i, a)]) (hp : RepresentsPath a p) :
    asPathFlags d p = flags := by
  obtain ⟨ms, rfl, hleast⟩ := hp
  exact asPathFlags_of_member hd hlen hpick hleast.1

omit hd in
/-- **A path that represents its class** comes back from its flags. -/
theorem asPath_of_flags (hsingle : ∀ hop ∈ p.hops, hop.isSingle = true)
    (hleast : ∀ a ∈ d.asPaths.parts, a.accepts (asPathText p) = true →
      a.IsLeast (bytes (asPathText p)))
    (hpick : pick 0 d.asPaths.parts (asPathFlags d p) = [(i, a)]) : RepresentsPath a p := by
  have hmem : (i, a) ∈ pick 0 d.asPaths.parts (asPathFlags d p) :=
    hpick ▸ List.mem_singleton_self _
  obtain ⟨ha, hflag⟩ := mem_pick_zero.1 hmem
  obtain ⟨ms, rfl⟩ := AsPath.exists_ofNumbers_eq hsingle
  exact ⟨ms, rfl, hleast a (List.mem_of_getElem? ha) ((asPathFlags_part ha).1 hflag)⟩

end

/-! ### The decoders -/

section
variable {d : Domain} {s : Store} {l : Layout} {m : Ref}
  (hlen : l.communities.length = d.communityCount)
include hlen

/-- The classes of communities that any diagram entails. -/
theorem held_standardCommunities_entailed :
    held s m .community d.standardCommunities.parts l.communities =
      .ok (pick 0 d.standardCommunities.parts (l.communities.map (s.entails m))) :=
  heldFrom_eq .community 0 (hlen.symm ▸ Nat.le_add_right _ _)

/-- The other communities that any diagram entails. -/
theorem heldFrom_otherCommunities_entailed :
    heldFrom s m .community d.standardCommunities.parts.length d.otherCommunities
        (l.communities.drop d.standardCommunities.parts.length) =
      .ok (pick d.standardCommunities.parts.length d.otherCommunities
        ((l.communities.map (s.entails m)).drop d.standardCommunities.parts.length)) := by
  have hle : d.otherCommunities.length ≤
      (l.communities.drop d.standardCommunities.parts.length).length := by
    rw [List.length_drop, hlen]
    exact Nat.le_of_eq (Nat.add_sub_cancel_left ..).symm
  rw [heldFrom_eq .community _ hle, List.map_drop]

/-- **The decoder of communities** gives a set that is put together from representatives of the
classes whose variables are entailed, whatever diagram they are entailed by. -/
theorem communities_eq_ok_iff_entailed (hd : d.Valid) {set : AscendingSet Community} :
    communities s m l d = .ok set ↔ ∃ cs,
      List.Forall₂ Represents
        (pick 0 d.standardCommunities.parts (l.communities.map (s.entails m))) cs ∧
      set = .ofList (cs ++ (pick d.standardCommunities.parts.length d.otherCommunities
        ((l.communities.map (s.entails m)).drop d.standardCommunities.parts.length)).map
          (·.2)) := by
  have hheld := held_standardCommunities_entailed (s := s) (m := m) hlen
  have hothers := heldFrom_otherCommunities_entailed (s := s) (m := m) hlen
  rw [communities]
  simp only [hheld, hothers, bind, Except.bind, pure, Except.pure]
  cases hrep : representatives
      (pick 0 d.standardCommunities.parts (l.communities.map (s.entails m))) with
  | error e =>
    refine ⟨nofun, ?_⟩
    rintro ⟨cs, hcs, -⟩
    exact nomatch hrep.symm.trans ((representatives_pick_iff hd).2 hcs)
  | ok cs =>
    have hcs := (representatives_pick_iff hd).1 hrep
    simp only [Except.ok.injEq]
    constructor
    · rintro rfl
      exact ⟨cs, hcs, rfl⟩
    · rintro ⟨ds, hds, rfl⟩
      rw [Except.ok.inj (hrep.symm.trans ((representatives_pick_iff hd).2 hds))]

end

section
variable {d : Domain} (hd : d.Valid) {s : Store} {l : Layout} {m : Ref} {p : Assignment}
  (hs : s.Valid) (hl : l.Over d s) (hm : s.IsCube m p)
include hd hs hl hm

omit hd in
/-- The classes of communities that hold. -/
theorem held_standardCommunities :
    held s m .community d.standardCommunities.parts l.communities =
      .ok (pick 0 d.standardCommunities.parts
        (block p.fill Layout.listStart d.communityCount)) := by
  rw [held_standardCommunities_entailed hl.communities.length_eq, map_entails hs hm hl.communities]

omit hd in
/-- The other communities that hold. -/
theorem heldFrom_otherCommunities :
    heldFrom s m .community d.standardCommunities.parts.length d.otherCommunities
        (l.communities.drop d.standardCommunities.parts.length) =
      .ok (pick d.standardCommunities.parts.length d.otherCommunities
        ((block p.fill Layout.listStart d.communityCount).drop
          d.standardCommunities.parts.length)) := by
  rw [heldFrom_otherCommunities_entailed hl.communities.length_eq,
    map_entails hs hm hl.communities]

/-- What is decoded from a cube is put together from representatives of the classes that hold. -/
theorem communities_eq_ok_iff {set : AscendingSet Community} :
    communities s m l d = .ok set ↔ ∃ cs,
      List.Forall₂ Represents (pick 0 d.standardCommunities.parts
        (block p.fill Layout.listStart d.communityCount)) cs ∧
      set = .ofList (cs ++ (pick d.standardCommunities.parts.length d.otherCommunities
        ((block p.fill Layout.listStart d.communityCount).drop
          d.standardCommunities.parts.length)).map (·.2)) := by
  rw [communities_eq_ok_iff_entailed hl.communities.length_eq hd,
    map_entails hs hm hl.communities]

/-- The decoder of AS paths reads the least member of the only class that holds. -/
theorem asPath_eq_readPath
    (hcount : (block p.fill d.asPathStart d.asPaths.size).count true = 1) :
    ∃ i a body, pick 0 d.asPaths.parts (block p.fill d.asPathStart d.asPaths.size) = [(i, a)] ∧
      asPath s m l d = readPath body ∧
        ∀ path, readPath body = .ok path ↔ RepresentsPath a path := by
  have hheld := held_eq hs hm .asPath hl.asPaths (Nat.le_refl _ :
    d.asPaths.parts.length ≤ d.asPaths.size)
  obtain ⟨⟨i, a⟩, hpick⟩ := exists_pick_eq_singleton 0
    (length_block p.fill d.asPathStart d.asPaths.size) hcount
  have hmem : (i, a) ∈ pick 0 d.asPaths.parts (block p.fill d.asPathStart d.asPaths.size) :=
    hpick ▸ List.mem_singleton_self _
  have ha := List.mem_of_getElem? (mem_pick_zero.1 hmem).1
  have hvalid := hd.asPaths.valid a ha
  have hsub : ∀ w, a.acceptsBytes w = true → allAsPaths.acceptsBytes w = true := fun w hw =>
    (hd.asPaths.covers w).2 ⟨a, ha, hw⟩
  have hinter : ∀ w, (allAsPaths.inter a).acceptsBytes w = a.acceptsBytes w := fun w => by
    rw [valid_allAsPaths.acceptsBytes_inter hvalid, Bool.and_eq_right_iff_imp]
    exact hsub w
  obtain ⟨body, hbody, hread⟩ := leastPath_eq_ok_iff (valid_allAsPaths.inter hvalid) .asPath i
    (by simpa only [hinter] using hd.asPaths.nonempty a ha) (by simpa only [hinter] using hsub)
  refine ⟨i, a, body, hpick, ?_, fun path => ?_⟩
  · rw [hpick] at hheld
    rw [asPath]
    simp only [hheld, bind, Except.bind, atMostOne, hbody]
  · rw [hread]
    simp only [Automaton.isLeast_congr hinter]
    rfl

/-- **The decoder of AS paths** gives the path that represents the only class that holds. -/
theorem asPath_eq_ok_iff
    (hcount : (block p.fill d.asPathStart d.asPaths.size).count true = 1) :
    ∃ i a, pick 0 d.asPaths.parts (block p.fill d.asPathStart d.asPaths.size) = [(i, a)] ∧
      ∀ path, asPath s m l d = .ok path ↔ RepresentsPath a path := by
  obtain ⟨i, a, body, hpick, heq, hread⟩ := asPath_eq_readPath hd hs hl hm hcount
  exact ⟨i, a, hpick, fun path => heq ▸ hread path⟩

/-! ### Classes that can be read -/

/-- **Communities are decoded** exactly if all classes that hold can be read. -/
theorem exists_communities_iff : (∃ set, communities s m l d = .ok set) ↔
    ∀ (i : Nat) (a : Automaton), d.standardCommunities.parts[i]? = some a →
      p.fill (Layout.listStart + i) = true → ∃ c, a.IsLeast (bytes (ofCommunity c)) := by
  have hmem {i : Nat} {a : Automaton} : (i, a) ∈ pick 0 d.standardCommunities.parts
      (block p.fill Layout.listStart d.communityCount) ↔
        d.standardCommunities.parts[i]? = some a ∧ p.fill (Layout.listStart + i) = true :=
    mem_pick_block (Nat.le_add_right _ _)
  constructor
  · rintro ⟨set, hset⟩ i a ha hi
    obtain ⟨cs, hcs, -⟩ := (communities_eq_ok_iff hd hs hl hm).1 hset
    obtain ⟨c, -, s, -, hleast⟩ := exists_right_of_mem hcs (hmem.2 ⟨ha, hi⟩)
    exact ⟨s, hleast⟩
  · intro hread
    have hrep : ∀ q ∈ pick 0 d.standardCommunities.parts
        (block p.fill Layout.listStart d.communityCount), ∃ c, Represents q c := fun q hq => by
      obtain ⟨ha, hi⟩ := hmem.1 hq
      obtain ⟨c, hc⟩ := hread _ _ ha hi
      exact ⟨_, c, rfl, hc⟩
    obtain ⟨cs, hcs⟩ := exists_forall₂ hrep
    exact ⟨_, (communities_eq_ok_iff hd hs hl hm).2 ⟨cs, hcs, rfl⟩⟩

/-- **An AS path is decoded** exactly if the class that holds can be read. -/
theorem exists_asPath_iff (hcount : (block p.fill d.asPathStart d.asPaths.size).count true = 1) :
    (∃ path, asPath s m l d = .ok path) ↔
      ∀ (i : Nat) (a : Automaton), d.asPaths.parts[i]? = some a →
        p.fill (d.asPathStart + i) = true →
          ∃ ns, a.IsLeast (bytes (asPathText (.ofNumbers ns))) := by
  obtain ⟨j, b, hpick, hpath⟩ := asPath_eq_ok_iff hd hs hl hm hcount
  have hmem {i : Nat} {a : Automaton} : (i, a) ∈ pick 0 d.asPaths.parts
      (block p.fill d.asPathStart d.asPaths.size) ↔
        d.asPaths.parts[i]? = some a ∧ p.fill (d.asPathStart + i) = true :=
    mem_pick_block (Nat.le_refl _)
  constructor
  · rintro ⟨path, hok⟩ i a ha hi
    have hia := hmem.2 ⟨ha, hi⟩
    rw [hpick, List.mem_singleton, Prod.mk.injEq] at hia
    obtain ⟨ns, -, hleast⟩ := (hpath path).1 hok
    exact ⟨ns, hia.2 ▸ hleast⟩
  · intro hread
    obtain ⟨hb, hj⟩ := hmem.1 (hpick ▸ List.mem_singleton_self (j, b) :
      (j, b) ∈ pick 0 d.asPaths.parts (block p.fill d.asPathStart d.asPaths.size))
    obtain ⟨ns, hns⟩ := hread j b hb hj
    exact ⟨_, (hpath _).2 ⟨ns, rfl, hns⟩⟩

end
end Decoding
end RouteSolver
