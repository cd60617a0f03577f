/-
# Communities that are named one by one

A community among the names has a number of its own (`NameList.exists_owns`). A standard community
owns a class: whatever patterns are among the names with it, the classes tell its text from every
other one, and since they are no finer than they have to be, a single class has that text. The
pattern that is the text of a standard community between its marks leads to the same class, in
whichever order the two are given, and also if only one of them is (`NameList.find?_ofCommunity`).
An extended or large community owns its place after the classes.

So these communities are decoded to themselves. From a cube that sets exactly the numbers of some
of them exactly these are decoded (`NameList.literals_exact`).
-/

import RouteSolver.Proofs.Constraint.Mentions
import RouteSolver.Proofs.Constraint.Truth
import RouteSolver.Proofs.Witness.Realized

namespace RouteSolver

open Diagram Delimited Utf8 RouteSolver.Partition

namespace NameList

/-! ### Classes of one community -/

/-- A language with one member consists of one part, which has no other member. -/
theorem ConsistsOf.exists_eq_singleton {a whole : Automaton} {parts : List Automaton}
    {ns : List Nat} {u : List UInt8} (h : ConsistsOf a parts ns) (hparts : IsPartition parts whole)
    (hns : ns.Nodup) (ha : ∀ w, a.acceptsBytes w = true ↔ w = u) :
    ∃ i b, ns = [i] ∧ parts[i]? = some b ∧ ∀ w, b.acceptsBytes w = true ↔ w = u := by
  obtain ⟨i, hi, b, hb, hbu⟩ := (h.iff u).1 ((ha u).2 rfl)
  have hsame : ∀ k ∈ ns, k = i := by
    intro k hk
    have hget := List.getElem?_eq_getElem (h.lt k hk)
    obtain ⟨w, hw⟩ := hparts.nonempty _ (List.getElem_mem (h.lt k hk))
    obtain rfl := (ha w).1 ((h.iff w).2 ⟨k, hk, _, hget, hw⟩)
    exact hparts.eq_of_accepts hget hb hw hbu
  have hsingleton : ns = [i] := by
    refine List.perm_singleton.1 ((List.perm_ext_iff_of_nodup hns (List.nodup_singleton i)).2 ?_)
    intro k
    rw [List.mem_singleton]
    exact ⟨hsame k, fun h => h ▸ hi⟩
  refine ⟨i, b, hsingleton, hb, fun w => ⟨fun hw => (ha w).1 ((h.iff w).2 ⟨i, hi, b, hb, hw⟩), ?_⟩⟩
  rintro rfl
  exact hbu

/-- The classes of standard communities for some patterns in the order in which they are given. -/
def communityClasses (patterns : List CommunityPattern) : Except DomainError Partition := do
  let languages ← patterns.eraseDups.mapM communityLanguage?
  return .ofLanguages allCommunities (languages.filterMap id)

section
variable {names : NameList} {d : Domain} {c : StandardCommunity}

/-- The classes of a domain are those of the patterns that its names list. -/
theorem exists_communityClasses (hd : names.domain = .ok d) :
    ∃ patterns, communityClasses patterns = .ok d.standardCommunities ∧
      ∀ p, p ∈ patterns ↔ names.Lists p := by
  rw [domain] at hd
  obtain ⟨cs, hread, hd⟩ := exists_of_bind_eq_ok hd
  obtain ⟨ls, hls, hd⟩ := exists_of_bind_eq_ok hd
  obtain ⟨ks, -, hd⟩ := exists_of_bind_eq_ok hd
  refine ⟨_, ?_, fun p => lists_iff hread⟩
  rw [communityClasses, hls, ← Except.ok.inj hd]
  rfl

/-- **A standard community has a class of its own** as soon as a pattern is given that goes by its
name, whatever the other patterns are and in whichever order they are given. -/
theorem find?_ofCommunity {patterns : List CommunityPattern} {classes : Partition}
    (h : communityClasses patterns = .ok classes) {p : CommunityPattern} (hp : p ∈ patterns)
    (hname : p.name? = some (ofCommunity c)) :
    ∃ i a, classes.find? (ofCommunity c) = some [i] ∧ classes.parts[i]? = some a ∧
      ∀ w, a.acceptsBytes w = true ↔ w = bytes (ofCommunity c) := by
  obtain ⟨ls, hls, heq⟩ := exists_of_bind_eq_ok h
  obtain rfl := Except.ok.inj heq
  have hnamed := named_of_communityLanguages hls
  obtain ⟨ns, hns⟩ := exists_find?_of_name? hls (List.mem_eraseDups.2 hp) hname
  obtain ⟨a, ha, hconsists⟩ := consistsOf_of_find? valid_allCommunities hnamed hns
  obtain ⟨a', ha', -, hmem⟩ := matchingCommunities_ofCommunity c
  obtain rfl := Except.ok.inj (ha.symm.trans ha')
  have hpartition := isPartition_ofLanguages valid_allCommunities fun l hl => (hnamed l hl).1
  obtain ⟨i, b, rfl, hb, hiff⟩ := hconsists.exists_eq_singleton hpartition (nodup_find? hns) hmem
  exact ⟨i, b, hns, hb, hiff⟩

end

end NameList

/-! ### Numbers of one community -/

/-- The number is the only one that the community as a pattern leads to, and no other community
goes by it. If it is the number of a class, the class has no other text either. -/
structure Domain.Owns (d : Domain) (c : Community) (i : Nat) : Prop where
  numbers : d.communities? (.literal c) = some [i]
  classifies_iff : ∀ b, d.Classifies i b ↔ b = c
  acceptsBytes_iff : ∀ a, d.standardCommunities.parts[i]? = some a →
    ∀ w, a.acceptsBytes w = true ↔ w = bytes (communityText c)

section
variable {d : Domain} {s : Store} {l : Layout} {m : Ref} {i : Nat} {c : Community}
  {chosen : AscendingSet Community}

namespace Domain.Owns

theorem classifies (h : d.Owns c i) : d.Classifies i c := (h.classifies_iff c).2 rfl

/-- **One number**: the community goes by no other one. -/
theorem eq_of_numbers (h : d.Owns c i) {k : Nat} (hk : d.communities? (.literal c) = some [k]) :
    k = i := by
  have hsame := hk.symm.trans h.numbers
  exact (List.cons.inj (Option.some.inj hsame)).1

/-- The text is the least one of its class, as it is the only one. -/
theorem isLeast {e : StandardCommunity} (hd : d.Valid) (h : d.Owns (.standard e) i) {a : Automaton}
    (ha : a ∈ d.standardCommunities.parts) (hae : a.accepts (ofCommunity e) = true) :
    a.IsLeast (bytes (ofCommunity e)) := by
  obtain ⟨k, hk⟩ := List.mem_iff_getElem?.1 ha
  have hclassifies : d.Classifies k (.standard e) := .part hk hae
  obtain rfl := hclassifies.unique hd h.classifies
  refine ⟨hae, fun u hu => ?_⟩
  obtain rfl := (h.acceptsBytes_iff a hk u).1 hu
  exact .refl _

end Domain.Owns

namespace NameList

/-- **A standard community owns a number** where the classes are those of some patterns and one of
these goes by its name; the pattern that is its text leads to the number as well. -/
theorem exists_owns_standard {patterns : List CommunityPattern}
    (h : communityClasses patterns = .ok d.standardCommunities) {e : StandardCommunity}
    {p : CommunityPattern} (hp : p ∈ patterns) (hname : p.name? = some (ofCommunity e)) :
    ∃ i, d.Owns (.standard e) i ∧ d.communities? (.regex (ofCommunity e)) = some [i] := by
  obtain ⟨i, a, hfind, ha, hiff⟩ := find?_ofCommunity h hp hname
  refine ⟨i, ⟨hfind, fun b => ?_, fun a' ha' => ?_⟩, hfind⟩
  · rw [Domain.classifies_part_iff ha]
    refine (hiff _).trans ⟨fun heq => ?_, fun heq => heq ▸ rfl⟩
    exact communityText_injective (bytes_injective heq)
  · obtain rfl := Option.some.inj (ha.symm.trans ha')
    exact hiff

/-- Either way of giving a standard community will do. -/
theorem exists_owns_of_mem {patterns : List CommunityPattern}
    (h : communityClasses patterns = .ok d.standardCommunities) {e : StandardCommunity}
    (he : .literal (.standard e) ∈ patterns ∨ .regex (ofCommunity e) ∈ patterns) :
    ∃ i, d.Owns (.standard e) i ∧ d.communities? (.regex (ofCommunity e)) = some [i] := by
  rcases he with he | he
  · exact exists_owns_standard h he rfl
  · exact exists_owns_standard h he rfl

/-- **An extended or large community owns its place** after the classes. -/
theorem owns_of_other (hc : c.isStandard = false) {ns : List Nat}
    (hns : d.communities? (.literal c) = some ns) : ∃ i, d.Owns c i := by
  obtain ⟨j, rfl, hj⟩ := other_of_communities? hc hns
  refine ⟨_, hns, fun b => Domain.classifies_other_iff hj, fun a ha => ?_⟩
  rw [Domain.parts_size_add d j] at ha
  cases ha

/-- **Every community that is registered owns a number.** -/
theorem exists_owns {names : NameList} (hd : names.domain = .ok d)
    (hc : names.Registers (.literal c)) : ∃ i, d.Owns c i := by
  obtain ⟨ns, hns⟩ := exists_communities? hd hc
  cases c with
  | standard e =>
    obtain ⟨patterns, hclasses, hmem⟩ := exists_communityClasses hd
    obtain ⟨p, hp, hname⟩ : ∃ p, names.Lists p ∧ p.name? = some (ofCommunity e) := by
      cases hc with
      | listed h => exact ⟨_, h, rfl⟩
      | sameName h hp hq => exact ⟨_, h, hp.trans hq.symm⟩
    obtain ⟨i, hi, -⟩ := exists_owns_standard hclasses ((hmem p).2 hp) hname
    exact ⟨i, hi⟩
  | extended e => exact owns_of_other rfl hns
  | large e => exact owns_of_other rfl hns

end NameList

/-! ### Decoding some of them -/

namespace Decoding

/-- **Communities that own their numbers are decoded** if exactly these numbers are entailed. -/
theorem communities_eq_ok_of_owned (hd : d.Valid) (hlen : l.communities.length = d.communityCount)
    (howned : ∀ c ∈ chosen.toList, ∃ i, d.Owns c i)
    (hentails : ∀ i, i < d.communityCount →
      (l.Entails s m i ↔ ∃ c ∈ chosen.toList, d.communities? (.literal c) = some [i])) :
    communities s m l d = .ok chosen := by
  refine communities_eq_ok_of_entails hd hlen (fun e he a ha hae => ?_) (fun c hc hother => ?_)
    fun i hi => (hentails i hi).trans ⟨?_, ?_⟩
  · obtain ⟨i, hi⟩ := howned _ he
    exact hi.isLeast hd ha hae
  · obtain ⟨i, hi⟩ := howned c hc
    obtain ⟨j, -, hj⟩ := NameList.other_of_communities? hother hi.numbers
    exact List.mem_of_getElem? hj
  · rintro ⟨c, hc, hnumbers⟩
    obtain ⟨k, hk⟩ := howned c hc
    exact ⟨c, hc, hk.eq_of_numbers hnumbers ▸ hk.classifies⟩
  · rintro ⟨c, hc, hclassifies⟩
    obtain ⟨k, hk⟩ := howned c hc
    exact ⟨c, hc, hclassifies.unique hd hk.classifies ▸ hk.numbers⟩

end Decoding

/-- A cube entails the variables of communities that it sets. -/
theorem Layout.Over.entails_iff_of_isCube (hl : l.Over d s) (hs : s.Valid) {p : Assignment}
    (hm : s.IsCube m p) (hi : i < d.communityCount) :
    l.Entails s m i ↔ p (Layout.listStart + i) = some true := by
  obtain ⟨x, hx, hdenotes⟩ := hl.communities.exists_denotes hi
  rw [← hm.entails_variable_iff hs hdenotes, Layout.Entails, hx]
  simp

/-- **The conjunction of some variables of communities** is the cube that sets these. -/
theorem Layout.Over.yields_conjAll_selected (hl : l.Over d s) {ns : List Nat}
    (hns : ∀ i ∈ ns, i < d.communityCount) :
    Yields s (conjAll (selected l.communities ns)) fun m t =>
      t.IsCube m fun k => if k ∈ ns.map (Layout.listStart + ·) then some true else none := by
  refine (yields_conjAll (hl.communities.denoteAll_selected ns)).mono fun m t _ _ hm =>
    ⟨hm.has, fun v => ?_⟩
  rw [hm.eval_eq, List.filter_eq_self.2 fun i hi => decide_eq_true (hns i hi), List.all_map,
    List.all_eq_true]
  constructor
  · intro h k b hk
    obtain ⟨hmem, rfl⟩ : k ∈ ns.map (Layout.listStart + ·) ∧ true = b := by
      simpa using hk
    obtain ⟨i, hi, rfl⟩ := List.mem_map.1 hmem
    exact h i hi
  · exact fun h i hi => h _ true (if_pos (List.mem_map_of_mem hi))

namespace NameList

/-- **From a cube that sets exactly the numbers of some communities** exactly these are decoded. -/
theorem communities_of_isCube {names : NameList} (hd : names.domain = .ok d) (hl : l.Over d s)
    (hs : s.Valid) {p : Assignment} (hm : s.IsCube m p)
    (hchosen : ∀ c ∈ chosen.toList, names.Registers (.literal c))
    (hp : ∀ i, i < d.communityCount → (p (Layout.listStart + i) = some true ↔
      ∃ c ∈ chosen.toList, d.communities? (.literal c) = some [i])) :
    Decoding.communities s m l d = .ok chosen := by
  refine Decoding.communities_eq_ok_of_owned (domain_valid hd) hl.communities.length_eq
    (fun c hc => exists_owns hd (hchosen c hc)) fun i hi => ?_
  rw [hl.entails_iff_of_isCube hs hm hi, hp i hi]

end NameList

end

namespace NameList

/-- **Communities among the names are decoded to themselves**, in the domain of any names. Each owns
a number, and different ones own different numbers. From a cube that sets exactly the numbers of
some of them, and above all from the conjunction of their variables, exactly these are decoded.

The pattern `^A:B$`, with its numbers written as in `A:B` as a text, leads to the number that the
community owns, whichever of the two is registered; and this is so in every domain whose classes are
those of some patterns, in whichever order the patterns have been given. -/
theorem literals_exact {names : NameList} {d : Domain} (hd : names.domain = .ok d)
    {s₀ s₁ s : Store} {l : Layout} (hs₀ : s₀.Reachable)
    (hl : (Layout.ofDomain d).run s₀ = (l, s₁)) (hs : s.Reachable) (hle : s₁ ≤ s) :
    (∀ c, names.Registers (.literal c) → ∃ i, i < d.communityCount ∧ d.Owns c i) ∧
    (∀ b c i, names.Registers (.literal b) → names.Registers (.literal c) →
      d.communities? (.literal b) = some [i] → d.communities? (.literal c) = some [i] → b = c) ∧
    (∀ chosen : AscendingSet Community, (∀ c ∈ chosen.toList, names.Registers (.literal c)) →
      (∀ m p, s.IsCube m p →
        (∀ i, i < d.communityCount → (p (Layout.listStart + i) = some true ↔
          ∃ c ∈ chosen.toList, d.communities? (.literal c) = some [i])) →
        Decoding.communities s m l d = .ok chosen) ∧
      ∀ ns m t, (∀ i, i ∈ ns ↔ ∃ c ∈ chosen.toList, d.communities? (.literal c) = some [i]) →
        (conjAll (selected l.communities ns)).run s = (m, t) →
        Decoding.communities t m l d = .ok chosen) ∧
    (∀ c, names.Lists (.literal (.standard c)) ∨ names.Lists (.regex (ofCommunity c)) →
      ∃ i, d.Owns (.standard c) i ∧ d.communities? (.regex (ofCommunity c)) = some [i]) ∧
    ∀ (e : Domain) patterns, communityClasses patterns = .ok e.standardCommunities →
      ∀ c, .literal (.standard c) ∈ patterns ∨ .regex (ofCommunity c) ∈ patterns →
        ∃ i, e.Owns (.standard c) i ∧ e.communities? (.regex (ofCommunity c)) = some [i] := by
  obtain ⟨hs₁, -, hover⟩ := (Layout.yields_ofDomain d).of_run hs₀.valid hl
  have hover := hover.mono hs₁ hle
  refine ⟨fun c hc => ?_, fun b c i hb hc hbi hci => ?_, fun chosen hchosen =>
    ⟨fun m p hm hp => communities_of_isCube hd hover hs.valid hm hchosen hp,
      fun ns m t hns hrun => ?_⟩,
    fun c hc => ?_, fun e patterns hclasses c hc => ?_⟩
  · obtain ⟨i, hi⟩ := exists_owns hd hc
    exact ⟨i, hi.classifies.lt, hi⟩
  · obtain ⟨j, hj⟩ := exists_owns hd hb
    obtain ⟨k, hk⟩ := exists_owns hd hc
    obtain rfl := hj.eq_of_numbers hbi
    obtain rfl := hk.eq_of_numbers hci
    exact (hk.classifies_iff b).1 hj.classifies
  · have hlt : ∀ i ∈ ns, i < d.communityCount := by
      intro i hi
      obtain ⟨c, hc, hnumbers⟩ := (hns i).1 hi
      obtain ⟨k, hk⟩ := exists_owns hd (hchosen c hc)
      exact hk.eq_of_numbers hnumbers ▸ hk.classifies.lt
    obtain ⟨ht, hst, hm⟩ := (hover.yields_conjAll_selected hlt).of_run hs.valid hrun
    refine communities_of_isCube hd (hover.mono hs.valid hst) ht hm hchosen fun i _ => ?_
    rw [← hns i]
    simp
  · obtain ⟨patterns, hclasses, hmem⟩ := exists_communityClasses hd
    rw [← hmem, ← hmem] at hc
    exact exists_owns_of_mem hclasses hc
  · exact exists_owns_of_mem hclasses hc

/-- A standard and a large community, a pattern that the standard one has a match of, and the text
of another standard community as a pattern. -/
def overlappingNames : NameList := ⟨["01:2", "1:2:3"], ["1", ofCommunity ⟨3, 4⟩], [], [], [], []⟩

theorem exists_domain_overlappingNames : ∃ d, overlappingNames.domain = .ok d := by
  refine exists_domain_eq_ok (by decide) (fun p hp => ?_) nofun
  obtain rfl | rfl : p = "1" ∨ p = ofCommunity ⟨3, 4⟩ := by simpa [overlappingNames] using hp
  · let one : Alternatives := ⟨.symbol (.char '1' (by decide)), []⟩
    have hone : one.IsRead .community := by decide
    obtain ⟨a, ha, -⟩ := Alternatives.exists_matching hone
    exact ⟨a, ha⟩
  · obtain ⟨a, ha, -⟩ := matchingCommunities_ofCommunity ⟨3, 4⟩
    exact ⟨a, ha⟩

/-- From the conjunction of the variables of 3:4 and the large community these two are decoded, and
not 1:2, which is among the names as well. -/
theorem literals_exact_overlapping : ∃ d l s ns m t, overlappingNames.domain = .ok d ∧
    (Layout.ofDomain d).run .empty = (l, s) ∧
    (conjAll (selected l.communities ns)).run s = (m, t) ∧ ns.length = 2 ∧
    Decoding.communities t m l d =
      .ok (.ofList [.standard ⟨3, 4⟩, .large ⟨1, 2, 3⟩]) := by
  obtain ⟨d, hd⟩ := exists_domain_overlappingNames
  rcases hl : (Layout.ofDomain d).run .empty with ⟨l, s⟩
  have hs := Layout.reachable_of_ofDomain .empty hl
  obtain ⟨howns, -, hdecodes, hpattern, -⟩ := literals_exact hd .empty hl hs le_rfl
  have hlarge : overlappingNames.Registers (.literal (.large ⟨1, 2, 3⟩)) :=
    .listed (.literal (List.mem_cons_of_mem _ List.mem_cons_self) (by decide))
  have hlists : overlappingNames.Lists (.regex (ofCommunity ⟨3, 4⟩)) :=
    .regex (List.mem_cons_of_mem _ List.mem_cons_self)
  obtain ⟨i, hi, -⟩ := hpattern ⟨3, 4⟩ (.inr hlists)
  obtain ⟨k, -, hk⟩ := howns _ hlarge
  rcases hrun : (conjAll (selected l.communities [i, k])).run s with ⟨m, t⟩
  refine ⟨d, l, s, [i, k], m, t, hd, hl, hrun, rfl, ?_⟩
  have hmem : ∀ c, c ∈ (AscendingSet.ofList
      [Community.standard ⟨3, 4⟩, .large ⟨1, 2, 3⟩]).toList ↔
      c = .standard ⟨3, 4⟩ ∨ c = .large ⟨1, 2, 3⟩ := fun c => by
    rw [AscendingSet.mem_ofList, List.mem_pair]
  refine (hdecodes _ fun c hc => ?_).2 [i, k] m t (fun n => ?_) hrun
  · obtain rfl | rfl := (hmem c).1 hc
    · exact .sameName hlists rfl rfl
    · exact hlarge
  · rw [List.mem_pair]
    constructor
    · rintro (rfl | rfl)
      · exact ⟨_, (hmem _).2 (.inl rfl), hi.numbers⟩
      · exact ⟨_, (hmem _).2 (.inr rfl), hk.numbers⟩
    · rintro ⟨c, hc, hn⟩
      obtain rfl | rfl := (hmem c).1 hc
      · exact .inl (hi.eq_of_numbers hn)
      · exact .inr (hk.eq_of_numbers hn)

end NameList
end RouteSolver
