/-
# What a domain knows

A domain that has been built is in order (`NameList.domain_valid`): its atomic predicates are
partitions of all communities and of all AS paths, and none of its lists has a name twice.

What it says about a name is right (`regex_of_communities?`, `standard_of_communities?`,
`other_of_communities?`, `regex_of_asPaths?`): the numbers it gives are those of the parts that make
up the language of the name, whoever has registered it and in which way. And it says something about
every name that has been registered (`exists_communities?`, `exists_asPaths?`).
-/

import RouteSolver.Domain.Basic
import RouteSolver.Proofs.Automaton.Constructed
import RouteSolver.Proofs.Domain.Partition
import RouteSolver.Proofs.Domain.Pattern
import RouteSolver.Proofs.Lists

namespace RouteSolver

open Delimited RouteSolver.Partition

namespace Domain

/-- What holds of every domain that has been built. -/
structure Valid (d : Domain) : Prop where
  communities : IsPartition d.standardCommunities.parts allCommunities
  asPaths : IsPartition d.asPaths.parts allAsPaths
  others_nodup : d.otherCommunities.Nodup
  others_notStandard : ∀ c ∈ d.otherCommunities, c.isStandard = false
  tracks_nodup : d.tracks.Nodup
  sourceVrfs_nodup : d.sourceVrfs.Nodup
  nextHopInterfaces_nodup : d.nextHopInterfaces.Nodup

end Domain

namespace NameList

variable {names : NameList} {d : Domain}

/-- A name goes with the language of its pattern. -/
def Named (matching : String → Except InvalidPattern Automaton) (whole : Automaton)
    (l : String × Automaton) : Prop :=
  l.2.Valid ∧ (∀ w, l.2.acceptsBytes w = true → whole.acceptsBytes w = true) ∧
    ∃ a, matching l.1 = .ok a ∧ ∀ w, a.acceptsBytes w = l.2.acceptsBytes w

theorem named_of_inter {matching : String → Except InvalidPattern Automaton} {whole : Automaton}
    (hw : whole.Valid) {expand : String → String}
    (hm : ∀ p, matching p = (Automaton.ofPattern (expand p)).map (·.inter whole)) {p : String}
    {a : Automaton} (h : matching p = .ok a) : Named matching whole (p, a) := by
  have hread := (hm p).symm.trans h
  cases hb : Automaton.ofPattern (expand p) with
  | error e =>
    rw [hb] at hread
    cases hread
  | ok b =>
    rw [hb] at hread
    obtain rfl : b.inter whole = a := Except.ok.inj hread
    have hvalid := (Automaton.Constructed.ofPattern hb).valid
    refine ⟨hvalid.inter hw, fun w hin => ?_, _, h, fun _ => rfl⟩
    rw [hvalid.acceptsBytes_inter hw, Bool.and_eq_true] at hin
    exact hin.2

theorem exists_of_asPathLanguage {p : String} {l : String × Automaton}
    (h : asPathLanguage p = .ok l) : ∃ a, matchingAsPaths p = .ok a ∧ l = (p, a) := by
  delta asPathLanguage at h
  cases hp : matchingAsPaths p with
  | error e => rw [hp] at h; exact nomatch h
  | ok a =>
    rw [hp] at h
    exact ⟨a, rfl, (Except.ok.inj h).symm⟩

theorem exists_of_communityLanguage? {p : String} {o : Option (String × Automaton)}
    (h : communityLanguage? (.regex p) = .ok o) :
    ∃ a, matchingCommunities p = .ok a ∧ o = some (p, a) := by
  delta communityLanguage? at h
  cases hp : matchingCommunities p with
  | error e => simp only [hp] at h; exact nomatch h
  | ok a =>
    simp only [hp] at h
    exact ⟨a, rfl, (Except.ok.inj h).symm⟩

theorem named_asPathLanguage {p : String} {l : String × Automaton}
    (h : asPathLanguage p = .ok l) : Named matchingAsPaths allAsPaths l := by
  obtain ⟨a, hp, rfl⟩ := exists_of_asPathLanguage h
  exact named_of_inter valid_allAsPaths (fun _ => rfl) hp

/-- Either way of naming a standard community gives it the language of its pattern. -/
theorem named_communityLanguage {p : CommunityPattern} {l : String × Automaton}
    (h : communityLanguage? p = .ok (some l)) : Named matchingCommunities allCommunities l := by
  cases p with
  | literal c =>
    cases c with
    | standard c =>
      obtain rfl := Option.some.inj (Except.ok.inj h)
      obtain ⟨a, ha, -, hmem⟩ := matchingCommunities_ofCommunity c
      refine ⟨Automaton.valid_ofBytes _, fun w hw => ?_, a, ha, fun w => ?_⟩
      · obtain rfl := (Automaton.acceptsBytes_ofBytes _ w).1 hw
        exact accepts_ofCommunity c
      · rw [Bool.eq_iff_iff, hmem]
        exact (Automaton.acceptsBytes_ofBytes _ w).symm
    | extended c => exact nomatch Except.ok.inj h
    | large c => exact nomatch Except.ok.inj h
  | regex p =>
    obtain ⟨a, hp, ho⟩ := exists_of_communityLanguage? h
    obtain rfl := Option.some.inj ho
    exact named_of_inter valid_allCommunities (fun _ => rfl) hp

/-- The names list the pattern: a text that writes the community, or the router pattern itself. -/
inductive Lists (names : NameList) : CommunityPattern → Prop
  | literal {text : String} {c : Community} (h : text ∈ names.communities)
    (hc : Community.read? text = some c) : names.Lists (.literal c)
  | regex {pattern : String} (h : pattern ∈ names.communityRegexes) : names.Lists (.regex pattern)

theorem mem_readCommunities {texts : List String} {cs : List Community} {c : Community}
    (h : readCommunities texts = .ok cs) :
    c ∈ cs ↔ ∃ text ∈ texts, Community.read? text = some c := by
  induction texts generalizing cs with
  | nil =>
    obtain rfl : [] = cs := Except.ok.inj h
    simp
  | cons text texts ih =>
    rw [readCommunities] at h
    split at h
    · cases h
    · rename_i b hb
      cases hrest : readCommunities texts with
      | error e => rw [hrest] at h; cases h
      | ok bs =>
        rw [hrest] at h
        obtain rfl : b :: bs = cs := Except.ok.inj h
        rw [List.mem_cons, List.exists_mem_cons_iff, ih hrest, hb, Option.some.injEq, eq_comm]

/-- The patterns that are registered, in the order of registration. -/
theorem lists_iff {cs : List Community} (h : readCommunities names.communities = .ok cs)
    {p : CommunityPattern} :
    p ∈ cs.map CommunityPattern.literal ++ names.communityRegexes.map CommunityPattern.regex ↔
      names.Lists p := by
  rw [List.mem_append, List.mem_map, List.mem_map]
  constructor
  · rintro (⟨c, hmem, rfl⟩ | ⟨pattern, hmem, rfl⟩)
    · obtain ⟨text, htext, hc⟩ := (mem_readCommunities h).1 hmem
      exact .literal htext hc
    · exact .regex hmem
  · rintro (⟨htext, hc⟩ | hmem)
    · exact .inl ⟨_, (mem_readCommunities h).2 ⟨_, htext, hc⟩, rfl⟩
    · exact .inr ⟨_, hmem, rfl⟩

/-- The steps of building a domain. -/
theorem exists_of_domain (h : names.domain = .ok d) :
    ∃ patterns communityLanguages asPathLanguages,
      (∀ p, p ∈ patterns ↔ names.Lists p) ∧
      patterns.mapM communityLanguage? = .ok communityLanguages ∧ patterns.Nodup ∧
      names.asPathRegexes.eraseDups.mapM asPathLanguage = .ok asPathLanguages ∧
      d = ⟨.ofLanguages allCommunities (communityLanguages.filterMap id), others patterns,
        .ofLanguages allAsPaths asPathLanguages, names.tracks.eraseDups,
        names.sourceVrfs.eraseDups, names.nextHopInterfaces.eraseDups⟩ := by
  rw [domain] at h
  obtain ⟨cs, hread, h⟩ := exists_of_bind_eq_ok h
  obtain ⟨ls, hls, h⟩ := exists_of_bind_eq_ok h
  obtain ⟨ks, hks, h⟩ := exists_of_bind_eq_ok h
  exact ⟨_, ls, ks, fun p => List.mem_eraseDups.trans (lists_iff hread), hls, nodup_eraseDups _,
    hks, (Except.ok.inj h).symm⟩

theorem named_of_communityLanguages {patterns : List CommunityPattern}
    {ls : List (Option (String × Automaton))} (h : patterns.mapM communityLanguage? = .ok ls) :
    ∀ l ∈ ls.filterMap id, Named matchingCommunities allCommunities l := by
  intro l hl
  obtain ⟨o, ho, hol⟩ := List.mem_filterMap.1 hl
  obtain ⟨p, -, hp⟩ := exists_left_of_mem (mapM_eq_ok_iff.1 h) ho
  exact named_communityLanguage (hp.trans (congrArg Except.ok hol))

theorem named_of_asPathLanguages {patterns : List String} {ls : List (String × Automaton)}
    (h : patterns.mapM asPathLanguage = .ok ls) :
    ∀ l ∈ ls, Named matchingAsPaths allAsPaths l := by
  intro l hl
  obtain ⟨p, -, hp⟩ := exists_left_of_mem (mapM_eq_ok_iff.1 h) hl
  exact named_asPathLanguage hp

theorem isStandard_of_mem_others {patterns : List CommunityPattern} {c : Community}
    (h : c ∈ others patterns) : c.isStandard = false := by
  obtain ⟨p, -, hp⟩ := List.mem_filterMap.1 h
  cases p with
  | literal b =>
    cases hb : b.isStandard with
    | true => simp [hb] at hp
    | false =>
      simp only [hb, Bool.false_eq_true, if_false, Option.some.injEq] at hp
      exact hp ▸ hb
  | regex p => exact nomatch hp

theorem nodup_others {patterns : List CommunityPattern} (h : patterns.Nodup) :
    (others patterns).Nodup := by
  have hliteral : ∀ {p : CommunityPattern} {c : Community}, c ∈ others [p] → p = .literal c := by
    intro p c hc
    obtain ⟨q, hq, hp⟩ := List.mem_filterMap.1 hc
    obtain rfl := List.mem_singleton.1 hq
    cases q with
    | literal b =>
      simp only at hp
      split at hp
      · cases hp
      · exact congrArg _ (Option.some.inj hp)
    | regex p => cases hp
  refine h.filterMap fun p q c hp hq => ?_
  have hp := hliteral (List.mem_filterMap.2 ⟨p, List.mem_singleton_self p, hp⟩)
  have hq := hliteral (List.mem_filterMap.2 ⟨q, List.mem_singleton_self q, hq⟩)
  exact hp.trans hq.symm

/-- **A domain that has been built** is in order. -/
theorem domain_valid (h : names.domain = .ok d) : d.Valid := by
  obtain ⟨patterns, ls, ks, -, hls, hnodup, hks, rfl⟩ := exists_of_domain h
  exact {
    communities := isPartition_ofLanguages valid_allCommunities fun l hl =>
      (named_of_communityLanguages hls l hl).1
    asPaths := isPartition_ofLanguages valid_allAsPaths fun l hl =>
      (named_of_asPathLanguages hks l hl).1
    others_nodup := nodup_others hnodup
    others_notStandard := fun c hc => isStandard_of_mem_others hc
    tracks_nodup := nodup_eraseDups _
    sourceVrfs_nodup := nodup_eraseDups _
    nextHopInterfaces_nodup := nodup_eraseDups _ }

/-! ### Looking a name up -/

/-- The numbers are those of parts, and together these parts are the language. -/
structure ConsistsOf (a : Automaton) (parts : List Automaton) (ns : List Nat) : Prop where
  lt : ∀ i ∈ ns, i < parts.length
  iff : ∀ w, a.acceptsBytes w = true ↔
    ∃ i ∈ ns, ∃ b, parts[i]? = some b ∧ b.acceptsBytes w = true

theorem consistsOf_of_find? {matching : String → Except InvalidPattern Automaton}
    {whole : Automaton} (hw : whole.Valid) {ls : List (String × Automaton)}
    (hls : ∀ l ∈ ls, Named matching whole l) {name : String} {ns : List Nat}
    (h : (ofLanguages whole ls).find? name = some ns) :
    ∃ a, matching name = .ok a ∧ ConsistsOf a (ofLanguages whole ls).parts ns := by
  have hfound := h
  rw [find?_ofLanguages] at hfound
  obtain ⟨l, hl, hlns⟩ := Option.map_eq_some_iff.1 hfound
  have hmem : (name, l) ∈ ls := by
    obtain ⟨l₁, l₂, heq, -⟩ := List.lookup_eq_some_iff.1 hl
    rw [heq]
    exact List.mem_append_right _ List.mem_cons_self
  obtain ⟨-, hsub, a, ha, hal⟩ := hls _ hmem
  obtain ⟨ms, hms, hparts⟩ := exists_find? hw (fun k hk => (hls k hk).1) hl hsub
  obtain rfl := Option.some.inj (hms.symm.trans h)
  refine ⟨a, ha, fun i hi => ?_, fun w => (hal w).symm ▸ hparts w⟩
  obtain ⟨b, hb, -⟩ := mem_partsOf.1 (hlns ▸ hi)
  exact (List.getElem?_eq_some_iff.1 hb).1

theorem consistsOf_of_find?_communities (h : names.domain = .ok d) {name : String} {ns : List Nat}
    (hns : d.standardCommunities.find? name = some ns) :
    ∃ a, matchingCommunities name = .ok a ∧ ConsistsOf a d.standardCommunities.parts ns := by
  obtain ⟨patterns, ls, ks, -, hls, -, -, rfl⟩ := exists_of_domain h
  exact consistsOf_of_find? valid_allCommunities (named_of_communityLanguages hls) hns

/-- **A pattern of communities** has the parts of the communities that match it. -/
theorem regex_of_communities? (h : names.domain = .ok d) {p : String} {ns : List Nat}
    (hns : d.communities? (.regex p) = some ns) :
    ∃ a, matchingCommunities p = .ok a ∧ ConsistsOf a d.standardCommunities.parts ns :=
  consistsOf_of_find?_communities h hns

/-- **A standard community** has the parts of its text. -/
theorem standard_of_communities? (h : names.domain = .ok d) {c : StandardCommunity}
    {ns : List Nat} (hns : d.communities? (.literal (.standard c)) = some ns) :
    ConsistsOf (onlyCommunity c) d.standardCommunities.parts ns := by
  obtain ⟨a, ha, hparts⟩ := consistsOf_of_find?_communities h hns
  obtain ⟨b, hb, -, hmem⟩ := matchingCommunities_ofCommunity c
  obtain rfl := Except.ok.inj (ha.symm.trans hb)
  refine ⟨hparts.lt, fun w => ?_⟩
  rw [← hparts.iff, hmem]
  exact Automaton.acceptsBytes_ofBytes _ w

/-- **Any other community** has the number of its place after the parts. -/
theorem other_of_communities? {c : Community} (hc : c.isStandard = false) {ns : List Nat}
    (hns : d.communities? (.literal c) = some ns) :
    ∃ j, ns = [d.standardCommunities.size + j] ∧ d.otherCommunities[j]? = some c := by
  have hname : (CommunityPattern.literal c).name? = none := by
    cases c with
    | standard c => exact nomatch hc
    | extended c => rfl
    | large c => rfl
  unfold Domain.communities? at hns
  simp only [hname] at hns
  obtain ⟨⟨k, b⟩, hfound, rfl⟩ := Option.map_eq_some_iff.1 hns
  have hb := List.find?_some hfound
  rw [decide_eq_true_iff] at hb
  obtain ⟨⟨a, j⟩, hmem, heq⟩ := List.mem_map.1 (List.mem_of_find?_eq_some hfound)
  obtain ⟨rfl, rfl⟩ := Prod.mk.inj heq
  exact ⟨j, rfl, hb ▸ List.mem_zipIdx_iff_getElem?.1 hmem⟩

/-- **A pattern of AS paths** has the parts of the paths that match it. -/
theorem regex_of_asPaths? (h : names.domain = .ok d) {p : String} {ns : List Nat}
    (hns : d.asPaths? p = some ns) :
    ∃ a, matchingAsPaths p = .ok a ∧ ConsistsOf a d.asPaths.parts ns := by
  obtain ⟨patterns, ls, ks, -, -, -, hks, rfl⟩ := exists_of_domain h
  exact consistsOf_of_find? valid_allAsPaths (named_of_asPathLanguages hks) hns

/-! ### Finding what has been registered -/

/-- The names register a pattern that they list, and every other pattern that goes by its name. -/
inductive Registers (names : NameList) : CommunityPattern → Prop
  | listed {p : CommunityPattern} (h : names.Lists p) : names.Registers p
  | sameName {p q : CommunityPattern} {name : String} (h : names.Lists p)
    (hp : p.name? = some name) (hq : q.name? = some name) : names.Registers q

theorem communities?_of_name? {p : CommunityPattern} {name : String} (h : p.name? = some name) :
    d.communities? p = d.standardCommunities.find? name := by
  unfold Domain.communities?
  simp only [h]

/-- A pattern with a name has a language, which goes by that name. -/
theorem exists_communityLanguage? {p : CommunityPattern} {name : String}
    {o : Option (String × Automaton)} (hp : p.name? = some name)
    (h : communityLanguage? p = .ok o) : ∃ a, o = some (name, a) := by
  cases p with
  | literal c =>
    cases c with
    | standard c =>
      obtain rfl := Option.some.inj hp
      exact ⟨_, (Except.ok.inj h).symm⟩
    | extended c => exact nomatch hp
    | large c => exact nomatch hp
  | regex pattern =>
    obtain rfl := Option.some.inj hp
    obtain ⟨a, -, rfl⟩ := exists_of_communityLanguage? h
    exact ⟨a, rfl⟩

theorem exists_communities?_of_other {c : Community}
    (hname : (CommunityPattern.literal c).name? = none) (h : c ∈ d.otherCommunities) :
    ∃ ns, d.communities? (.literal c) = some ns := by
  obtain ⟨j, hj⟩ := List.mem_iff_getElem?.1 h
  have hmem : (d.standardCommunities.size + j, c) ∈ d.numberedOthers :=
    List.mem_map.2 ⟨(c, j), List.mem_zipIdx_iff_getElem?.2 hj, rfl⟩
  have hfound : (d.numberedOthers.find? fun p => decide (p.2 = c)).isSome :=
    List.find?_isSome.2 ⟨_, hmem, decide_eq_true rfl⟩
  obtain ⟨p, hp⟩ := Option.isSome_iff_exists.1 hfound
  unfold Domain.communities?
  simp only [hname, hp, Option.map_some]
  exact ⟨_, rfl⟩

/-- The name of a pattern that is among the others is found. -/
theorem exists_find?_of_name? {patterns : List CommunityPattern}
    {ls : List (Option (String × Automaton))} (hls : patterns.mapM communityLanguage? = .ok ls)
    {p : CommunityPattern} (hp : p ∈ patterns) {name : String} (hname : p.name? = some name) :
    ∃ ns, (ofLanguages allCommunities (ls.filterMap id)).find? name = some ns := by
  obtain ⟨o, ho, hpo⟩ := exists_right_of_mem (mapM_eq_ok_iff.1 hls) hp
  obtain ⟨a, rfl⟩ := exists_communityLanguage? hname hpo
  have hlanguage : (name, a) ∈ ls.filterMap id := List.mem_filterMap.2 ⟨_, ho, rfl⟩
  exact exists_find?_of_mem hlanguage

theorem exists_communities?_of_lists (h : names.domain = .ok d) {p : CommunityPattern}
    (hp : names.Lists p) : ∃ ns, d.communities? p = some ns := by
  obtain ⟨patterns, ls, ks, hmem, hls, -, -, rfl⟩ := exists_of_domain h
  have hpattern := (hmem p).2 hp
  cases hname : p.name? with
  | some name =>
    rw [communities?_of_name? hname]
    exact exists_find?_of_name? hls hpattern hname
  | none =>
    cases p with
    | regex pattern => exact nomatch hname
    | literal c =>
      refine exists_communities?_of_other hname (List.mem_filterMap.2 ⟨_, hpattern, ?_⟩)
      cases c with
      | standard c => exact nomatch hname
      | extended c => rfl
      | large c => rfl

/-- **Every pattern that is registered** is known to the domain. -/
theorem exists_communities? (h : names.domain = .ok d) {p : CommunityPattern}
    (hp : names.Registers p) : ∃ ns, d.communities? p = some ns := by
  cases hp with
  | listed hp => exact exists_communities?_of_lists h hp
  | sameName hp hname hname' =>
    rw [communities?_of_name? hname', ← communities?_of_name? hname]
    exact exists_communities?_of_lists h hp

/-- **Every pattern of AS paths that is registered** is known to the domain. -/
theorem exists_asPaths? (h : names.domain = .ok d) {p : String} (hp : p ∈ names.asPathRegexes) :
    ∃ ns, d.asPaths? p = some ns := by
  obtain ⟨patterns, ls, ks, -, -, -, hks, rfl⟩ := exists_of_domain h
  obtain ⟨l, hl, hpl⟩ := exists_right_of_mem (mapM_eq_ok_iff.1 hks) (List.mem_eraseDups.2 hp)
  obtain ⟨a, -, rfl⟩ := exists_of_asPathLanguage hpl
  exact exists_find?_of_mem hl

end NameList
end RouteSolver
