/-
# Which answer a search gives

The answers of a search are told apart by properties of the scenario (`Witness.search_classified`).
A faulty name comes before everything else, then a community that is named in both ways or in none,
then the question whether some valuation satisfies the diagram. If one does, then a model is picked,
and it is decoded unless a text of one of its classes writes no value. A name that is not registered
is never met: the domain of a scenario is built from all that its constraints mention
(`Constraint.registered_iff`).
-/

import RouteSolver.Proofs.Constraint.Mentions
import RouteSolver.Proofs.Witness.Outcome

namespace RouteSolver

open Diagram

/-! ### Scenarios that can go wrong -/

namespace Scenario

variable {sc : Scenario} {d : Domain} {l : Layout} {s : Store} {m : Mention}

/-- The scenario refers to this, beforehand or in its constraints at any depth. -/
def Mentions (sc : Scenario) (m : Mention) : Prop :=
  sc.names.Has m ∨ ∃ c ∈ sc.constraints, c.Mentions m

/-- A community that is known beforehand is written as none, or a pattern is none. -/
def Faulty (sc : Scenario) : Prop :=
  (∃ text ∈ sc.names.communities, Community.read? text = none) ∨
    (∃ pattern e, sc.Mentions (.communityRegex pattern) ∧
      Delimited.matchingCommunities pattern = .error e) ∨
    ∃ pattern e, sc.Mentions (.asPathRegex pattern) ∧
      Delimited.matchingAsPaths pattern = .error e

/-- Some community in the constraints is named in both ways or in none. -/
def Ambiguous (sc : Scenario) : Prop := ∃ c ∈ sc.constraints, c.Ambiguous

theorem has_allNames : sc.allNames.Has m ↔ sc.Mentions m := NameList.has_addConstraints m _ _

/-- **What a scenario mentions is found** in its domain. -/
theorem finds_of_mentions (hd : sc.allNames.domain = .ok d) (h : sc.Mentions m) : d.Finds m :=
  NameList.finds_of_has hd (has_allNames.2 h)

/-- **The domain of a scenario** cannot be built exactly if the scenario is faulty. The communities
in its constraints are no concern, since they are values and not texts. -/
theorem faulty_iff : sc.Faulty ↔ ∃ e, sc.allNames.domain = .error e := by
  rw [NameList.exists_domain_error_iff]
  simp only [has_allNames]
  constructor
  · rintro (⟨text, hm, h⟩ | ⟨pattern, e, hm, h⟩ | ⟨pattern, e, hm, h⟩)
    · exact ⟨.community text, .inl hm, .community h⟩
    · exact ⟨_, hm, .communityRegex h⟩
    · exact ⟨_, hm, .asPathRegex h⟩
  · rintro ⟨m, hm, ⟨h⟩ | ⟨h⟩ | ⟨h⟩⟩
    · rcases hm with hm | ⟨c, -, b, -, hb⟩
      · exact .inl ⟨_, hm, h⟩
      · obtain ⟨c, _⟩ | _ := hb
        exact nomatch (Community.read?_text c).symm.trans h
    · exact .inr (.inl ⟨_, _, hm, h⟩)
    · exact .inr (.inr ⟨_, _, hm, h⟩)

theorem not_faulty_of_domain (hd : sc.allNames.domain = .ok d) : ¬sc.Faulty := by
  rw [faulty_iff]
  rintro ⟨e, he⟩
  exact nomatch hd.symm.trans he

/-- **The constraints of a scenario** are registered in its domain exactly if none is ambiguous. -/
theorem allRegistered_iff (hd : sc.allNames.domain = .ok d) :
    Constraint.AllRegistered d sc.constraints ↔ ¬sc.Ambiguous :=
  Constraint.allRegistered_iff _ fun _ h => finds_of_mentions hd (.inr h)

/-- **A scenario without a formula** is ambiguous. -/
theorem failsAmbiguous_formula (hd : sc.allNames.domain = .ok d) (hl : l.Over d s) :
    Constraint.FailsAmbiguous (sc.formula l d) := by
  have htotal : Total (liftM l.wellFormed : FormulaBuild Ref) := .lift _
  refine .bind (.of_total htotal) fun _ => .bind ?_ fun _ => .of_total (.lift _)
  exact Constraint.failsAmbiguous_formulas hl _ fun _ h => finds_of_mentions hd (.inr h)

/-- The scenario has a diagram that some valuation satisfies. -/
def Satisfiable (sc : Scenario) : Prop :=
  ∃ d q s, sc.CompilesTo d q s ∧ ∃ v, s.eval q v = true

/-- The scenario has a diagram that no valuation satisfies. -/
def Unsatisfiable (sc : Scenario) : Prop :=
  ∃ d q s, sc.CompilesTo d q s ∧ ∀ v, s.eval q v = false

end Scenario

namespace Witness

/-! ### Verdicts -/

/-- There is a witness, or the least text of a class writes no value. -/
def Decodable (x : Except SearchError Witness) : Prop :=
  (∃ w, x = .ok w) ∨ ∃ e, x = .error (.decode e) ∧ e.Unreadable

/-- What is found out about a scenario, in the order in which it is found out, and the answer to
it. -/
inductive Verdict (sc : Scenario) : Except SearchError Witness → Prop
  | faulty (h : sc.Faulty) (e : DomainError) : Verdict sc (.error (.domain e))
  | ambiguous (hfaulty : ¬sc.Faulty) (h : sc.Ambiguous) :
    Verdict sc (.error (.constraint .ambiguousCommunity))
  | unsatisfiable (h : sc.Unsatisfiable) : Verdict sc (.error .unsatisfiable)
  | satisfiable {x : Except SearchError Witness} (h : sc.Satisfiable) (hx : Decodable x) :
    Verdict sc x

/-- **Every search comes to a verdict.** -/
theorem verdict_search (sc : Scenario) (steered : Bool) : Verdict sc (search sc steered) := by
  cases hd : sc.allNames.domain with
  | error e =>
    rw [search, hd]
    exact .faulty (Scenario.faulty_iff.2 ⟨e, hd⟩) e
  | ok d =>
    have hfaulty := Scenario.not_faulty_of_domain hd
    by_cases hambiguous : sc.Ambiguous
    · have hrun := (yields_searchOver_outcome d sc steered).post_run Store.valid_empty
      obtain ⟨hreg, -⟩ | ⟨-, l, t, e, hl, hfails, hx⟩ := hrun
      · exact absurd hambiguous ((Scenario.allRegistered_iff hd).1 hreg)
      · obtain rfl := Scenario.failsAmbiguous_formula hd hl t e hfails
        rw [search_of_domain hd, hx]
        exact .ambiguous hfaulty hambiguous
    · obtain ⟨q, s, hq⟩ :=
        Scenario.exists_compilesTo hd ((Scenario.allRegistered_iff hd).2 hambiguous)
      have houtcome := hq.outcome steered
      generalize search sc steered = x at houtcome ⊢
      cases houtcome with
      | unsatisfiable hno => exact .unsatisfiable ⟨d, q, s, hq, hno⟩
      | @decoded _ _ v _ hg hv hx =>
        have htrue := hg.entails hv.holds
        refine .satisfiable ⟨d, q, s, hq, v, htrue⟩ ?_
        obtain ⟨-, w, hw, -⟩ | ⟨-, he⟩ := hx.cases (NameList.domain_valid hd) (hq.wellFormed htrue)
        · exact .inl ⟨w, hw⟩
        · exact .inr he

end Witness
end RouteSolver
