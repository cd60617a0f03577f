/-
# Counting is exact

`atMostOne` and `exactlyOne` count positions of a list, for every list of diagrams of a reachable
store (`Store.Reachable.cardinalities_exact`): the diagrams may be of any functions, depend on each
other in any way, and occur more than once, each occurrence at its own position.
-/

import RouteSolver.Proofs.Diagram.Composed

namespace RouteSolver
namespace Diagram
namespace Store

variable {s : Store} {rs : List Ref}

/-- The true values of some diagrams, counted. -/
theorem count_values_eval (s : Store) (rs : List Ref) (v : Valuation) :
    (values (rs.map s.eval) v).count true = rs.countP (s.eval · v) := by
  rw [values, List.map_map]
  exact count_map_true _ _

/-- **Cardinality formulas count.** At most one: any two positions that are true are the same.
Exactly one: there is one position that is true and no other, so that for the empty list the formula
is the false diagram. -/
theorem Reachable.cardinalities_exact (hs : s.Reachable) (hrs : ∀ r ∈ rs, s.Has r) :
    s.Decides (atMostOne rs) (fun v =>
      ∀ i j : Fin rs.length, s.eval rs[i] v = true → s.eval rs[j] v = true → i = j) ∧
    s.Decides (exactlyOne rs) (fun v => ∃! i : Fin rs.length, s.eval rs[i] v = true) ∧
    ((exactlyOne []).run s).1 = .bot := by
  have hden := denoteAll_eval hrs
  refine ⟨hs.decides (leads_atMostOne hrs) (yields_atMostOne hden) fun v => ?_,
    hs.decides (leads_exactlyOne hrs) (yields_exactlyOne hden) fun v => ?_, rfl⟩
  · rw [decide_eq_true_iff, count_values_eval, countP_le_one_iff]
  · rw [decide_eq_true_iff, count_values_eval, countP_eq_one_iff]

/-- A variable, the variable again, and its negation: both positions of the variable are true where
it is, so exactly one position is true where it is false. -/
theorem cardinalities_exact_repeated :
    let literal := positive 0 .empty
    let opposite := negative 0 literal.2
    let one := (exactlyOne [literal.1, literal.1, opposite.1]).run opposite.2
    opposite.2.Reachable ∧ opposite.2.Has literal.1 ∧ opposite.2.Has opposite.1 ∧
      ∀ v : Valuation, one.2.eval one.1 v = true ↔ v 0 = false := by
  intro literal opposite one
  have hliteral : literal.2.Reachable := .step (.positive 0) .empty nofun
  have hopposite : opposite.2.Reachable := .step (.negative 0) hliteral nofun
  obtain ⟨-, -, hx, -⟩ := yields_positive 0 valid_empty
  obtain ⟨-, hle, hy, -⟩ := yields_negative 0 hliteral.valid
  have hx' : opposite.2.Denotes literal.1 fun v => v 0 := hx.mono hliteral.valid hle
  have hy' : opposite.2.Denotes opposite.1 fun v => !v 0 := hy
  have hmem : ∀ r ∈ [literal.1, literal.1, opposite.1], opposite.2.Has r := by
    simpa using ⟨hx'.has, hy'.has⟩
  obtain ⟨-, hone, -⟩ := hopposite.cardinalities_exact hmem
  refine ⟨hopposite, hx'.has, hy'.has, fun v => ?_⟩
  show ((exactlyOne _).run opposite.2).2.eval _ v = true ↔ _
  rw [hone.eval_iff]
  constructor
  · rintro ⟨i, -, hunique⟩
    by_contra hv
    rw [Bool.not_eq_false] at hv
    have hzero := hunique 0 ((hx'.eval_eq v).trans hv)
    have hsecond := hunique 1 ((hx'.eval_eq v).trans hv)
    exact absurd (hzero.trans hsecond.symm) (by decide)
  · intro hv
    refine ⟨2, (hy'.eval_eq v).trans (by rw [hv]; rfl), fun j hj => ?_⟩
    match j with
    | 0 => exact Bool.noConfusion (((hx'.eval_eq v).trans hv).symm.trans hj)
    | 1 => exact Bool.noConfusion (((hx'.eval_eq v).trans hv).symm.trans hj)
    | 2 => rfl

end Store
end Diagram
end RouteSolver
