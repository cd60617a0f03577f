/-
# What a search finds

A search is right in both of its answers. The witness that it finds satisfies all constraints
(`search_sound`), because its encoding makes the formula true. And if it says that there is none,
then there is none (`search_complete`), because the encoding of such a route would make the formula
true. Preferences change neither: they only lead to another model of the same formula.

When every class of the domain has a least member that can be read, and every name is registered,
there is no third answer (`Answers.decides`).
-/

import RouteSolver.Proofs.Constraint.Formula
import RouteSolver.Proofs.Witness.Nameless
import RouteSolver.Proofs.Witness.Outcome

namespace RouteSolver

open Diagram

namespace Witness

/-- The route and the environment satisfy all constraints. -/
def Solves (sc : Scenario) (r : Route) (e : Environment) : Prop := ∀ c ∈ sc.constraints, c.Holds r e

/-- What may be said of a scenario. -/
structure Answers (d : Domain) (sc : Scenario) (x : Except SearchError Witness) : Prop where
  sound : ∀ w, x = .ok w → Solves sc w.route w.environment
  complete : x = .error .unsatisfiable → ∀ r e, (∀ hop ∈ r.asPath.hops, hop.isSingle = true) →
    r.clusterList.size ≤ 255 → ¬Solves sc r e
  decides : d.Readable → Constraint.AllRegistered d sc.constraints →
    x = .error .unsatisfiable ∨ ∃ w, x = .ok w

section
variable {d : Domain} {v : Valuation} {granted : List Wish} {sc : Scenario}

theorem solves_truncate (r : Route) (e : Environment) :
    Solves sc { r with network := r.network.truncate } e ↔ Solves sc r e :=
  forall₂_congr fun c _ => c.holds_truncate

section
variable {names : NameList} (hd : names.domain = .ok d)
  (hreg : Constraint.AllRegistered d sc.constraints)
include hd hreg

/-- **What is asked of the encoding of a route** is that the route solves the scenario. -/
theorem truth_encode_iff {r : Route} {e : Environment}
    (hr : ∀ hop ∈ r.asPath.hops, hop.isSingle = true) (hclusters : r.clusterList.size ≤ 255) :
    sc.truth d (encode d r e) = true ↔ Solves sc r e := by
  have henc := encodes_encode d r e
  rw [(Scenario.saidBy_truth hd hreg).iff _ r e henc hclusters]
  exact and_iff_right (henc.wellFormed (NameList.domain_valid hd) hr)

/-- **What a model is decoded to** solves the scenario. -/
theorem Decodes.solves {w : Witness} (h : Decodes d v granted (.ok w))
    (hv : sc.truth d v = true) : Solves sc w.route w.environment := by
  have hsaid := Scenario.saidBy_truth hd hreg
  obtain ⟨-, hclusters, -, n, hn, henc⟩ :=
    h.encodes (NameList.domain_valid hd) (hsaid.wellFormed v hv)
  have hsolves : Solves sc { w.route with network := n } w.environment :=
    ((hsaid.iff _ _ _ henc hclusters).1 hv).2
  rw [← solves_truncate, ← hn] at hsolves
  exact hsolves

/-- **The outcome of what is asked** answers the scenario. -/
theorem Outcome.answers {wishes : List Wish} {x : Except SearchError Witness}
    (h : Outcome d (sc.truth d) wishes x) : Answers d sc x := by
  cases h with
  | unsatisfiable hno =>
    refine ⟨fun w hw => ?_, fun _ r e hr hclusters hsolves => ?_, fun _ _ => .inl rfl⟩
    · cases hw
    · have htrue := (truth_encode_iff hd hreg hr hclusters).2 hsolves
      exact Bool.noConfusion ((hno _).symm.trans htrue)
  | @decoded _ _ v _ hg hv hx =>
    have htrue := hg.entails hv.holds
    have hwf := (Scenario.truth_iff.1 htrue).1
    have hcases := hx.cases (NameList.domain_valid hd) hwf
    refine ⟨fun w hw => ?_, fun hunsat => ?_, fun hread _ => ?_⟩
    · exact Decodes.solves hd hreg (hw ▸ hx) htrue
    · rw [hunsat] at hcases
      obtain ⟨-, w, hw, -⟩ | ⟨-, e, he, -⟩ := hcases
      · cases hw
      · cases he
    · obtain ⟨-, w, hw, -⟩ | ⟨hnot, -⟩ := hcases
      · exact .inr ⟨w, hw⟩
      · exact absurd (hread.readableAt v) hnot

end

theorem answers_search (hd : sc.allNames.domain = .ok d) (steered : Bool) :
    Answers d sc (search sc steered) := by
  rw [search_of_domain hd]
  obtain ⟨hreg, houtcome⟩ | ⟨hnot, l, t, e, -, -, hx⟩ :=
    (yields_searchOver_outcome d sc steered).post_run Store.valid_empty
  · exact houtcome.answers hd hreg
  · rw [hx]
    refine ⟨fun w hw => ?_, fun hunsat => ?_, fun _ hreg => absurd hreg hnot⟩
    · cases hw
    · cases hunsat

/-- An answer that is not about the domain has a domain. -/
theorem exists_answers {steered : Bool} {x : Except SearchError Witness}
    (h : search sc steered = x) (hx : ∀ e, x ≠ .error (.domain e)) : ∃ d, Answers d sc x := by
  cases hd : sc.allNames.domain with
  | error e =>
    rw [search, hd] at h
    exact absurd h.symm (hx e)
  | ok d => exact ⟨d, h ▸ answers_search hd steered⟩

/-- Over a readable domain, a scenario that some route solves has a witness. -/
theorem exists_search_eq_ok (hd : sc.allNames.domain = .ok d) (hread : d.Readable)
    (hreg : Constraint.AllRegistered d sc.constraints) {r : Route} {e : Environment}
    (hr : ∀ hop ∈ r.asPath.hops, hop.isSingle = true) (hclusters : r.clusterList.size ≤ 255)
    (hsolves : Solves sc r e) (steered : Bool) : ∃ w, search sc steered = .ok w := by
  have hanswers := answers_search hd steered
  rcases hanswers.decides hread hreg with h | h
  · exact absurd hsolves (hanswers.complete h r e hr hclusters)
  · exact h

/-- Over a readable domain, a scenario that no route solves is unsatisfiable. -/
theorem search_eq_unsatisfiable (hd : sc.allNames.domain = .ok d) (hread : d.Readable)
    (hreg : Constraint.AllRegistered d sc.constraints) (hsolves : ∀ r e, ¬Solves sc r e)
    (steered : Bool) : search sc steered = .error .unsatisfiable := by
  have hanswers := answers_search hd steered
  rcases hanswers.decides hread hreg with h | ⟨w, hw⟩
  · exact h
  · exact absurd (hanswers.sound w hw) (hsolves _ _)

end

/-! ### The two answers -/

/-- **A witness satisfies the constraints.** -/
theorem search_sound {sc : Scenario} {steered : Bool} {w : Witness}
    (h : search sc steered = .ok w) : ∀ c ∈ sc.constraints, c.Holds w.route w.environment := by
  obtain ⟨d, hanswers⟩ := exists_answers h nofun
  exact hanswers.sound w rfl

/-- A route that is not learned by BGP, has a high local preference and lies in a network. -/
def preferredRoute : Scenario :=
  ⟨.empty, [.not (.protocol .bgp), .within .localPreference (some 200) none,
    .prefixWithin staticRoute.network (some 16) none], .default⟩

theorem search_sound_preferredRoute : ∃ w, search preferredRoute true = .ok w ∧
    ∀ c ∈ preferredRoute.constraints, c.Holds w.route w.environment := by
  have hsubnet : staticRoute.network.IsSubnetOf staticRoute.network := fun _ ha => ha
  have hsolves : Solves preferredRoute staticRoute ⟨[], none⟩ := (Constraint.allHold_iff _).1
    ⟨nofun, ⟨fun _ hlo => Option.some.inj hlo ▸ Nat.le_refl 200, nofun⟩,
      ⟨hsubnet, by decide, by decide⟩, trivial⟩
  have hnames : preferredRoute.allNames.domain = .ok .nameless := NameList.domain_empty
  obtain ⟨w, hw⟩ := exists_search_eq_ok hnames Domain.readable_nameless
    ⟨trivial, trivial, trivial, trivial⟩ (by decide) (by decide) hsolves true
  exact ⟨w, hw, search_sound hw⟩

/-- **What is said to be unsatisfiable** is satisfied by no route with single AS numbers and at most
255 clusters, in no environment. -/
theorem search_complete {sc : Scenario} {steered : Bool}
    (h : search sc steered = .error .unsatisfiable) (r : Route) (e : Environment)
    (hr : ∀ hop ∈ r.asPath.hops, hop.isSingle = true) (hclusters : r.clusterList.size ≤ 255) :
    ¬∀ c ∈ sc.constraints, c.Holds r e := by
  obtain ⟨d, hanswers⟩ := exists_answers h nofun
  exact hanswers.complete rfl r e hr hclusters

/-- Bounds that cross. -/
def crossedBounds : Scenario := ⟨.empty, [.within .metric (some 5) (some 4)], .default⟩

theorem search_complete_crossedBounds : search crossedBounds true = .error .unsatisfiable ∧
    ¬∀ c ∈ crossedBounds.constraints, c.Holds staticRoute ⟨["uplink"], none⟩ := by
  have hnames : crossedBounds.allNames.domain = .ok .nameless := NameList.domain_empty
  have hunsat := search_eq_unsatisfiable hnames Domain.readable_nameless ⟨trivial, trivial⟩
    (fun r e hsolves => ?_) true
  · exact ⟨hunsat, search_complete hunsat _ _ (by decide) (by decide)⟩
  · obtain ⟨hmin, hmax⟩ := hsolves _ List.mem_cons_self
    have hlo := hmin _ rfl
    have hhi := hmax _ rfl
    exact absurd (Nat.le_trans hlo hhi) (by decide)

end Witness
end RouteSolver
