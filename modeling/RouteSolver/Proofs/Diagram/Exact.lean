/-
# Connectives and entailment are exact

What the operations on diagrams compute is said here for every reachable store and all diagrams in
it. An operation computes a function (`Store.Computes`) when its result denotes it and everything
that was there keeps what it denotes; the connectives compute theirs, with a table of earlier
results that is shared by all of them, and their recursions end
(`Store.Reachable.connectives_exact`). Entailment is decided by a second recursion, which adds no
node; it agrees with building the difference of the two diagrams
(`Store.Reachable.entailment_exact`).

Both rest on the validity of reachable stores: tables with right results, and diagrams that are
reduced, so that only the false diagram is false everywhere.
-/

import RouteSolver.Proofs.Diagram.Reachable
import RouteSolver.Proofs.Diagram.Recursion

namespace RouteSolver
namespace Diagram
namespace Store

variable {s : Store} {a b : Ref} {m : Build Ref} {f : Valuation → Bool}

/-- Run in the store, the computation gives a diagram of the function, and every diagram of the
store denotes afterwards what it denoted before. -/
structure Computes (s : Store) (m : Build Ref) (f : Valuation → Bool) : Prop where
  denotes : (m.run s).2.Denotes (m.run s).1 f
  keeps : ∀ r, s.Has r → (m.run s).2.Denotes r (s.eval r)

theorem Valid.computes (hs : s.Valid) (h : Yields s m fun q t => t.Denotes q f) :
    s.Computes m f := by
  obtain ⟨-, hst, hq⟩ := h hs
  exact ⟨hq, fun r hr => hr.denotes.mono hs hst⟩

/-- **The operations compute their connective** in every reachable store: literals, negation, the
binary connectives, and those over a list, which stop at the constant that decides. The recursions
behind negation and the binary connectives end, in exactly one way. -/
theorem Reachable.connectives_exact (hs : s.Reachable) :
    (∀ i, s.Computes (positive i) (fun v => v i) ∧ s.Computes (negative i) fun v => !v i) ∧
    (∀ a, s.Has a → s.Computes (neg a) fun v => !s.eval a v) ∧
    (∀ a b, s.Has a → s.Has b →
      s.Computes (conj a b) (fun v => s.eval a v && s.eval b v) ∧
      s.Computes (disj a b) (fun v => s.eval a v || s.eval b v) ∧
      s.Computes (implies a b) fun v => !s.eval a v || s.eval b v) ∧
    (∀ rs : List Ref, (∀ r ∈ rs, s.Has r) →
      s.Computes (conjAll rs) (fun v => rs.all fun r => s.eval r v) ∧
      s.Computes (disjAll rs) fun v => rs.any fun r => s.eval r v) ∧
    (∀ a, s.Has a → ∀ q t, NegRun s a q t ↔ (neg a).run s = (q, t)) ∧
    ∀ op a b, s.Has a → s.Has b →
      ∀ q t, CombineRun op s a b q t ↔ (combine op a b).run s = (q, t) := by
  have hv := hs.valid
  refine ⟨fun i => ?literals, fun a ha => ?negation, fun a b ha hb => ?binary, fun rs hrs => ?lists,
    fun a ha q t => hv.negRun_iff ha, fun op a b ha hb q t => hv.combineRun_iff ha hb⟩
  case literals =>
    exact ⟨hv.computes ((yields_positive i).mono fun _ _ _ _ h => h.1),
      hv.computes ((yields_negative i).mono fun _ _ _ _ h => h.1)⟩
  case negation => exact hv.computes (yields_neg ha.denotes)
  case binary =>
    exact ⟨hv.computes (yields_conj ha.denotes hb.denotes),
      hv.computes (yields_disj ha.denotes hb.denotes),
      hv.computes (yields_implies ha.denotes hb.denotes)⟩
  case lists =>
    constructor
    · refine hv.computes ((yields_conjAll (denoteAll_eval hrs)).mono fun _ _ _ _ h => h.congr ?_)
      exact fun v => List.all_map
    · refine hv.computes ((yields_disjAll (denoteAll_eval hrs)).mono fun _ _ _ _ h => h.congr ?_)
      exact fun v => List.any_map

/-- A literal, once more, and its opposite: their conjunction is the false diagram, and the
recursion that finds this out ends. -/
theorem connectives_exact_complementary :
    let literal := positive 0 .empty
    let opposite := negative 0 literal.2
    opposite.2.Reachable ∧ opposite.2.Has literal.1 ∧ opposite.2.Has opposite.1 ∧
      ((conjAll [literal.1, literal.1, opposite.1]).run opposite.2).1 = .bot ∧
      ∃ q t, CombineRun .conj opposite.2 literal.1 opposite.1 q t := by
  intro literal opposite
  have hliteral : literal.2.Reachable := .step (.positive 0) .empty nofun
  have hopposite : opposite.2.Reachable := .step (.negative 0) hliteral nofun
  have hfirst := (Reachable.empty.connectives_exact.1 0).1.denotes
  have hsecond := (hliteral.connectives_exact.1 0).2
  have hx : opposite.2.Denotes literal.1 fun v => v 0 :=
    (hsecond.keeps _ hfirst.has).congr hfirst.eval_eq
  have hy : opposite.2.Denotes opposite.1 fun v => !v 0 := hsecond.denotes
  obtain ⟨-, -, -, hlists, -, hends⟩ := hopposite.connectives_exact
  refine ⟨hopposite, hx.has, hy.has, ?_, _, _, (hends .conj _ _ hx.has hy.has _ _).2 rfl⟩
  have hmem : ∀ r ∈ [literal.1, literal.1, opposite.1], opposite.2.Has r := by
    simpa using ⟨hx.has, hy.has⟩
  have hconj := (hlists _ hmem).1.denotes
  have hreach : ((conjAll [literal.1, literal.1, opposite.1]).run opposite.2).2.Reachable :=
    .step (.conjAll _) hopposite hmem
  by_contra hne
  obtain ⟨v, htrue⟩ := hreach.valid.exists_eval_eq_true hconj.has hne
  rw [hconj.eval_eq] at htrue
  have hboth : opposite.2.eval literal.1 v = true ∧ opposite.2.eval opposite.1 v = true := by
    simpa using htrue
  rw [hx.eval_eq, hy.eval_eq, Bool.not_eq_true'] at hboth
  exact Bool.noConfusion (hboth.1.symm.trans hboth.2)

/-- **Entailment is exact** for all diagrams of a reachable store: two diagrams are separated
exactly if some valuation makes the one true and the other false, exactly if their difference is not
the false diagram; so a model of any shape entails a formula exactly if every valuation that
satisfies the model satisfies the formula. -/
theorem Reachable.entailment_exact (hs : s.Reachable) (ha : s.Has a) (hb : s.Has b) :
    (s.separates a b = true ↔ ∃ v, s.eval a v = true ∧ s.eval b v = false) ∧
    (s.separates a b = true ↔ ((do conj a (← neg b)).run s).1 ≠ .bot) ∧
    (s.entails a b = true ↔ ∀ v, s.eval a v = true → s.eval b v = true) := by
  have hv := hs.valid
  refine ⟨hv.separates_iff ha hb, ?_, hv.entails_iff ha.denotes hb.denotes⟩
  have hdiff : Yields s (do conj a (← neg b)) fun q t =>
      t.Denotes q fun v => s.eval a v && !s.eval b v :=
    (yields_neg hb.denotes).bind fun _ _ hst _ hn => yields_conj (ha.denotes.mono hv hst) hn
  obtain ⟨ht, -, hq⟩ := hdiff hv
  have hsat := hq.isSatisfiable_iff ht
  rw [Ref.isSatisfiable, decide_eq_true_iff] at hsat
  rw [hv.separates_iff ha hb]
  refine Iff.trans ?_ hsat.symm
  exact exists_congr fun v => by rw [Bool.and_eq_true, Bool.not_eq_true']

/-- A model without a valuation entails a literal; the model that leaves everything open does not,
and the difference of the two is a diagram with a valuation. -/
theorem entailment_exact_contradictory :
    let literal := positive 0 .empty
    literal.2.Reachable ∧ literal.2.Has .bot ∧ literal.2.Has .top ∧ literal.2.Has literal.1 ∧
      literal.2.entails .bot literal.1 = true ∧ literal.2.entails .top literal.1 = false ∧
      ((do conj .top (← neg literal.1)).run literal.2).1 ≠ .bot := by
  intro literal
  have hliteral : literal.2.Reachable := .step (.positive 0) .empty nofun
  obtain ⟨hv, -, hx, -⟩ := yields_positive 0 valid_empty
  obtain ⟨-, -, hbot⟩ := hliteral.entailment_exact hv.has_bot hx.has
  obtain ⟨htop, hdiff, -⟩ := hliteral.entailment_exact hv.has_top hx.has
  have hsep : literal.2.separates .top literal.1 = true :=
    htop.2 ⟨fun _ => false, rfl, hx.eval_eq _⟩
  refine ⟨hliteral, hv.has_bot, hv.has_top, hx.has, hbot.2 fun v h => Bool.noConfusion h, ?_,
    hdiff.1 hsep⟩
  rw [entails, hsep]
  rfl

end Store
end Diagram
end RouteSolver
