/-
# Equivalent scenarios

What a search answers depends on the meaning of the constraints only (`search_congr`). Lists of
names that have the same entries in the same order lead to one domain
(`NameList.SameEntries.domain_eq`), over this domain equivalent constraints ask the same of
valuations, and a search comes to one outcome for what is asked. What has been built on the way, in
which order and how often, cannot be seen.
-/

import RouteSolver.Proofs.Constraint.Exact
import RouteSolver.Proofs.Witness.Outcome

namespace RouteSolver

open Diagram

/-! ### Lists of names with the same entries -/

namespace NameList

/-- The lists have the same entries, in the order in which these occur for the first time.
Communities are compared as what their texts write. -/
structure SameEntries (a b : NameList) : Prop where
  communities : (readCommunities a.communities).map List.eraseDups =
    (readCommunities b.communities).map List.eraseDups
  communityRegexes : a.communityRegexes.eraseDups = b.communityRegexes.eraseDups
  asPathRegexes : a.asPathRegexes.eraseDups = b.asPathRegexes.eraseDups
  tracks : a.tracks.eraseDups = b.tracks.eraseDups
  sourceVrfs : a.sourceVrfs.eraseDups = b.sourceVrfs.eraseDups
  nextHopInterfaces : a.nextHopInterfaces.eraseDups = b.nextHopInterfaces.eraseDups

/-- No text is a community and a router pattern at once, so the two kinds of patterns are made
different one by one. -/
theorem eraseDups_patterns (cs : List Community) (regexes : List String) :
    (cs.map CommunityPattern.literal ++ regexes.map CommunityPattern.regex).eraseDups =
      cs.eraseDups.map .literal ++ regexes.eraseDups.map .regex := by
  have hliteral : Function.Injective CommunityPattern.literal := fun _ _ h =>
    CommunityPattern.literal.inj h
  have hregex : Function.Injective CommunityPattern.regex := fun _ _ h =>
    CommunityPattern.regex.inj h
  have hdisjoint : (regexes.map CommunityPattern.regex).removeAll
      (cs.map CommunityPattern.literal) = regexes.map CommunityPattern.regex := by
    refine List.filter_eq_self.2 fun p hp => ?_
    obtain ⟨regex, -, rfl⟩ := List.mem_map.1 hp
    simp
  rw [List.eraseDups_append, hdisjoint, eraseDups_map hliteral, eraseDups_map hregex]

/-- **The same entries** make the same domain. -/
theorem SameEntries.domain_eq {a b : NameList} (h : a.SameEntries b) : a.domain = b.domain := by
  have hcommunities := h.communities
  rw [domain, domain]
  cases ha : readCommunities a.communities with
  | error e =>
    cases hb : readCommunities b.communities with
    | error e' =>
      rw [ha, hb] at hcommunities
      exact congrArg _ (Except.error.inj hcommunities)
    | ok cs' =>
      rw [ha, hb] at hcommunities
      cases hcommunities
  | ok cs =>
    cases hb : readCommunities b.communities with
    | error e' =>
      rw [ha, hb] at hcommunities
      cases hcommunities
    | ok cs' =>
      rw [ha, hb] at hcommunities
      have hcs : cs.eraseDups = cs'.eraseDups := Except.ok.inj hcommunities
      simp only [bind, Except.bind, eraseDups_patterns, hcs, h.communityRegexes, h.asPathRegexes,
        h.tracks, h.sourceVrfs, h.nextHopInterfaces]

end NameList

/-! ### Equivalent constraints -/

namespace Witness

/-- **A search depends on meanings only.** Two scenarios have the same preferences; the names of
both make a domain and have the same entries in the order in which these first occur; both have a
diagram, and the two diagrams agree on all well-formed valuations. Then a search answers both in the
same way. -/
theorem search_congr {sc sc' : Scenario} {d d' : Domain} {q q' : Ref} {s s' : Store}
    (h : sc.CompilesTo d q s) (h' : sc'.CompilesTo d' q' s')
    (hnames : sc.allNames.SameEntries sc'.allNames)
    (hpreferences : sc.preferences = sc'.preferences)
    (hequiv : ∀ v, Layout.WellFormed d v → s.eval q v = s'.eval q' v) (steered : Bool) :
    search sc steered = search sc' steered := by
  obtain rfl := Except.ok.inj (h.domain.symm.trans (hnames.domain_eq.trans h'.domain))
  -- beyond well-formed valuations both diagrams are false
  have heval : s.eval q = s'.eval q' := by
    funext v
    by_cases hwf : Layout.WellFormed d v
    · exact hequiv v hwf
    · rw [Bool.eq_false_iff.2 fun hv => hwf (h.wellFormed hv),
        Bool.eq_false_iff.2 fun hv => hwf (h'.wellFormed hv)]
  have hwishes : wishesOf sc steered = wishesOf sc' steered := by
    rw [wishesOf, wishesOf, hpreferences]
  have houtcome := h.outcome steered
  rw [heval, hwishes] at houtcome
  exact houtcome.unique (fun v hv => h'.wellFormed hv) (h'.outcome steered)

/-- Denied are BGP and the failure of a track. -/
def uplinkAsDenial : Scenario :=
  ⟨⟨[], [], [], ["uplink"], [], []⟩,
    [.not (.anyOf [.protocol .bgp, .not (.track "uplink")])], .default⟩

/-- The same in other words: the track is asked for twice, and not named beforehand. -/
def uplinkAsConjunction : Scenario :=
  ⟨.empty, [.track "uplink", .allOf [.not (.protocol .bgp)], .track "uplink"], .default⟩

theorem allTrue_uplinkAsDenial (d : Domain) (v : Valuation) :
    Constraint.allTrue d v uplinkAsDenial.constraints =
      Constraint.allTrue d v uplinkAsConjunction.constraints := by
  let bgp := Constraint.not (.protocol .bgp)
  let uplink := Constraint.track "uplink"
  calc Constraint.allTrue d v uplinkAsDenial.constraints
      = Constraint.allTrue d v [.allOf [bgp, .not (.not uplink)]] := by
        rw [uplinkAsDenial, Constraint.allTrue, Constraint.truth_not_anyOf]
        rfl
    _ = Constraint.allTrue d v [bgp, .not (.not uplink)] := Constraint.allTrue_allOf_cons
    _ = Constraint.allTrue d v [bgp, uplink] := by
        simp only [Constraint.allTrue, Constraint.truth_not_not]
    _ = Constraint.allTrue d v [bgp, uplink, uplink] :=
        Constraint.allTrue_congr (by simp)
    _ = Constraint.allTrue d v [.allOf [bgp], uplink, uplink] := by
        rw [Constraint.allTrue_allOf_cons]
        rfl
    _ = Constraint.allTrue d v uplinkAsConjunction.constraints :=
        Constraint.allTrue_congr (by simp [uplinkAsConjunction, bgp, uplink, or_left_comm])

theorem search_congr_uplinkAsDenial : ∃ d q q' s s', uplinkAsDenial.CompilesTo d q s ∧
    uplinkAsConjunction.CompilesTo d q' s' ∧
      search uplinkAsDenial true = search uplinkAsConjunction true := by
  have hsame : uplinkAsDenial.allNames.SameEntries uplinkAsConjunction.allNames := by
    constructor <;> decide
  obtain ⟨d, hd⟩ : ∃ d, uplinkAsDenial.allNames.domain = .ok d := ⟨_, rfl⟩
  have hd' := hsame.domain_eq.symm.trans hd
  have hreg : Constraint.AllRegistered d uplinkAsDenial.constraints :=
    Constraint.AllKnownTo.registered hd _ ⟨⟨trivial, List.mem_cons_self, trivial⟩, trivial⟩
  have hreg' : Constraint.AllRegistered d uplinkAsConjunction.constraints :=
    Constraint.AllKnownTo.registered hd _
      ⟨List.mem_cons_self, ⟨trivial, trivial⟩, List.mem_cons_self, trivial⟩
  obtain ⟨q, s, h⟩ := Scenario.exists_compilesTo hd hreg
  obtain ⟨q', s', h'⟩ := Scenario.exists_compilesTo hd' hreg'
  refine ⟨d, q, q', s, s', h, h', search_congr h h' hsame rfl (fun v _ => ?_) true⟩
  rw [h.eval_eq, h'.eval_eq, Scenario.truth, Scenario.truth, allTrue_uplinkAsDenial]

end Witness
end RouteSolver
