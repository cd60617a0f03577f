/-
# The greedy choice is the best one

A wish is granted exactly when the valuation that comes out does what it asks (`Granted.eq_filter`),
so the wishes that have been granted can be read off any model of the result. And no valuation does
better by the order of the wishes: the first wish on which another valuation of the constraints
differs is one that it fails (`Granted.verdicts_le`). An early wish counts more than all later ones
together, which is the lexicographic order on what a valuation says of the wishes.

`steer_greedy` puts this together with what is known of the model: there is none exactly for an
unsatisfiable formula, and otherwise it fixes all variables and entails the formula.
-/

import RouteSolver.Proofs.Diagram.Reachable
import RouteSolver.Proofs.Preference
import RouteSolver.Proofs.Witness.Nameless
import Mathlib.Data.Bool.Basic
import Mathlib.Data.List.Forall2
import Mathlib.Data.List.Lex

namespace RouteSolver

open Diagram

namespace Granted

variable {f g : Valuation → Bool} {ws granted : List Wish} {v w : Valuation}

/-- **What has been granted** is what any valuation of the result is asked for and does. -/
theorem eq_filter (h : Granted f ws g granted) (hv : g v = true) :
    granted = ws.filter (·.asks v) := by
  induction h with
  | nil => rfl
  | grant _ hrest ih =>
    have hasks := (Bool.and_eq_true_iff.1 (hrest.entails hv)).2
    rw [List.filter_cons_of_pos hasks, ← ih hv]
  | refuse hroom hrest ih =>
    have hasks := fun hasks => hroom ⟨v, Bool.and_eq_true_iff.2 ⟨hrest.entails hv, hasks⟩⟩
    rw [List.filter_cons_of_neg hasks, ← ih hv]

/-- **No valuation does better**, as far as the wishes count in their order. -/
theorem verdicts_le (h : Granted f ws g granted) (hv : g v = true) (hw : f w = true) :
    ws.map (·.asks w) ≤ ws.map (·.asks v) := by
  induction h with
  | nil => exact le_rfl
  | @grant f g wish ws granted _ hrest ih =>
    have hasks := (Bool.and_eq_true_iff.1 (hrest.entails hv)).2
    rw [List.map_cons, List.map_cons, hasks]
    cases hwish : wish.asks w with
    | false => exact le_of_lt (List.Lex.rel (by decide))
    | true => exact List.cons_le_cons _ (ih hv (Bool.and_eq_true_iff.2 ⟨hw, hwish⟩))
  | @refuse f g wish ws granted hroom hrest ih =>
    -- there is no room for the wish, so that both valuations fail it
    have hfails : ∀ u, f u = true → wish.asks u = false := fun u hu =>
      Bool.eq_false_iff.2 fun hasks => hroom ⟨u, Bool.and_eq_true_iff.2 ⟨hu, hasks⟩⟩
    rw [List.map_cons, List.map_cons, hfails w hw, hfails v (hrest.entails hv)]
    exact List.cons_le_cons _ (ih hv hw)

end Granted

/-! ### The formulas of the wishes -/

/-- The formulas of some wishes over the layout of a domain. -/
def wishFormulas (d : Domain) (ws : List Wish) : Build (List Ref) := do
  let l ← Layout.ofDomain d
  ws.mapM (·.formula l)

section
variable {s t u : Store} {r : Ref} {d : Domain} {ws : List Wish} {xs : List Ref}

theorem yields_wishFormulas (d : Domain) (ws : List Wish) :
    Yields s (wishFormulas d ws) fun xs t =>
      List.Forall₂ (fun w x => t.Denotes x w.asks) ws xs := by
  refine (Layout.yields_ofDomain d).bind fun l t _ ht hl => ?_
  exact Yields.mapM (fun w _ u hu => yields_wish (hl.mono ht hu) w) fun w q t u ht htu hq =>
    hq.mono ht htu

theorem map_eval_wishFormulas (h : List.Forall₂ (fun w x => t.Denotes x w.asks) ws xs)
    (v : Valuation) : xs.map (t.eval · v) = ws.map (·.asks v) := by
  induction h with
  | nil => rfl
  | cons hx _ ih => rw [List.map_cons, List.map_cons, ih, hx.eval_eq]

end

/-! ### Steering -/

/-- What is said of some wishes by those that have been granted. -/
def verdicts (ws granted : List Wish) : List Bool := ws.map fun w => decide (w ∈ granted)

theorem verdicts_filter (ws : List Wish) (p : Wish → Bool) :
    verdicts ws (ws.filter p) = ws.map p := by
  refine List.map_congr_left fun w hw => ?_
  rw [Bool.eq_iff_iff, decide_eq_true_iff, List.mem_filter]
  exact and_iff_right hw

theorem steer_of_unsatisfiable {s : Store} (hs : s.Valid) {r : Ref} (hr : s.Has r)
    (h : ∀ v, s.eval r v = false) (d : Domain) (p : Preferences) :
    (steer d p r).run s = (none, s) := by
  have hsat : r.isSatisfiable = false := by
    rw [← Bool.not_eq_true, hr.denotes.isSatisfiable_iff hs, not_exists]
    exact fun v hv => Bool.noConfusion (hv.symm.trans (h v))
  rw [steer, hsat]
  rfl

/-- **Steering is the best greedy choice.** It comes to nothing exactly when the formula is
unsatisfiable. Else the model fixes all variables that have been named and entails the formula; the
granted wishes are, in their order, those whose formulas the model entails; and what the model does
for the wishes is the most, in lexicographic order, that any valuation of the formula does. -/
theorem steer_greedy {s : Store} (hs : s.Reachable) {r : Ref} (hr : s.Has r) (d : Domain)
    (p : Preferences) :
    (((steer d p r).run s).1 = none ↔ ∀ v, s.eval r v = false) ∧
    ∀ picked t, (steer d p r).run s = (some picked, t) →
      (∃ w, t.IsCube picked.model (.below t.variableCount w)) ∧
      t.entails picked.model r = true ∧
      picked.granted.Sublist p.wishes ∧
      ∀ xs u, (wishFormulas d p.wishes).run t = (xs, u) →
        List.Forall₂ (fun w x => u.entails picked.model x = true ↔ w ∈ picked.granted)
          p.wishes xs ∧
        (∃ v, s.eval r v = true ∧ xs.map (u.eval · v) = verdicts p.wishes picked.granted) ∧
        ∀ v, s.eval r v = true → xs.map (u.eval · v) ≤ verdicts p.wishes picked.granted := by
  have hvalid := hs.valid
  by_cases hsat : ∃ v, s.eval r v = true
  swap
  · have hunsat : ∀ v, s.eval r v = false := fun v => Bool.eq_false_iff.2 fun hv => hsat ⟨v, hv⟩
    rw [steer_of_unsatisfiable hvalid hr hunsat]
    exact ⟨⟨fun _ => hunsat, fun _ => rfl⟩, fun picked t hrun => nomatch hrun⟩
  have hsteer := yields_greedySteer hr.denotes hsat d p
  refine ⟨⟨fun hnone => ?_, fun hunsat => ?_⟩, fun picked t hrun => ?_⟩
  · obtain ⟨picked, hpicked, -⟩ := hsteer.post_run hvalid
    exact nomatch hnone.symm.trans hpicked
  · obtain ⟨v, hv⟩ := hsat
    exact nomatch (hunsat v).symm.trans hv
  obtain ⟨ht, hst, _, hpicked, g, w, hgranted, hcube, hw⟩ := hsteer.of_run hvalid hrun
  obtain rfl := Option.some.inj hpicked
  -- the values that the model fixes, filled with false
  have hmodel := hw _ (Assignment.admits_fill _)
  have hfilter := hgranted.eq_filter hmodel
  refine ⟨⟨w, hcube⟩, ?_, hfilter ▸ List.filter_sublist, fun xs u hxs => ?_⟩
  · rw [hcube.entails_iff ht (hr.denotes.mono hvalid hst)]
    exact fun v hv => hgranted.entails (hw v hv)
  obtain ⟨hu, htu, hdenote⟩ := (yields_wishFormulas d p.wishes).of_run ht hxs
  have hverdicts : verdicts p.wishes picked.granted =
      p.wishes.map (·.asks (Assignment.below t.variableCount w).fill) := by
    rw [hfilter, verdicts_filter]
  refine ⟨?_, ⟨_, hgranted.entails hmodel, ?_⟩, fun v hv => ?_⟩
  · refine ((List.forall₂_and_left _ _).2 ⟨fun _ h => h, hdenote⟩).imp fun wish x ⟨hwish, hx⟩ => ?_
    rw [(hcube.mono ht htu).entails_iff hu hx]
    constructor
    · intro h
      rw [hfilter, List.mem_filter]
      exact ⟨hwish, h _ (Assignment.admits_fill _)⟩
    · intro h v hv
      rw [hgranted.eq_filter (hw v hv), List.mem_filter] at h
      exact h.2
  · rw [map_eval_wishFormulas hdenote, hverdicts]
  · rw [map_eval_wishFormulas hdenote, hverdicts]
    exact hgranted.verdicts_le hmodel hv

/-- A formula against the first protocol, which is the one that is wished for by default. -/
theorem steer_greedy_otherProtocol : ∃ (s t u : Store) (r : Ref) (picked : Steered)
    (xs : List Ref), s.Reachable ∧ s.Has r ∧ (negative 0).run .empty = (r, s) ∧
      (steer .nameless .default r).run s = (some picked, t) ∧
      (wishFormulas .nameless Preferences.default.wishes).run t = (xs, u) ∧
      t.entails picked.model r = true ∧ picked.granted.Sublist Preferences.default.wishes ∧
      ∀ v, v 0 = false →
        xs.map (u.eval · v) ≤ verdicts Preferences.default.wishes picked.granted := by
  rcases hliteral : (negative 0).run .empty with ⟨r, s⟩
  obtain ⟨-, -, hr, -⟩ := (yields_negative 0).of_run Store.valid_empty hliteral
  have hreachable : s.Reachable := by
    have hstep := Store.Reachable.step (.negative 0) .empty fun _ h => absurd h List.not_mem_nil
    rwa [show ((Operation.negative 0).run Store.empty).2 = s from congrArg (·.2) hliteral] at hstep
  obtain ⟨hnone, hsome⟩ := steer_greedy hreachable hr.has .nameless .default
  rcases hrun : (steer .nameless .default r).run s with ⟨x, t⟩
  rw [hrun] at hnone
  cases x with
  | none =>
    have hfalse := hnone.1 rfl fun _ => false
    rw [hr.eval_eq] at hfalse
    exact nomatch hfalse
  | some picked =>
    obtain ⟨-, hentails, hsublist, hbest⟩ := hsome picked t hrun
    rcases hxs : (wishFormulas .nameless Preferences.default.wishes).run t with ⟨xs, u⟩
    refine ⟨s, t, u, r, picked, xs, hreachable, hr.has, rfl, hrun, hxs, hentails, hsublist,
      fun v hv => (hbest xs u hxs).2.2 v ?_⟩
    rw [hr.eval_eq, hv]
    rfl

end RouteSolver
