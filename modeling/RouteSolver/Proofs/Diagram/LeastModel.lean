/-
# The least complete model

`leastModel` fixes every variable that has been named. What it finds is said here without the walk
through the diagram: the values of the named variables are compared as words, false before true and
the first variable first (`Valuation.first`), and of all words that make the diagram true the one
found is the least (`Store.Reachable.leastModel_exact`).

The words are as long as there are named variables, since no diagram depends on any other one.
-/

import RouteSolver.Proofs.Diagram.Reachable
import Mathlib.Order.Fin.Basic
import Mathlib.Order.Lattice
import Mathlib.Order.PiLex

namespace RouteSolver
namespace Diagram

namespace Valuation

variable {n : Nat} {v w : Valuation}

/-- The values of the variables below `n`, in lexicographic order: of two valuations the one that is
false where they differ for the first time comes first. -/
def first (v : Valuation) (n : Nat) : Lex (Fin n → Bool) := toLex fun i => v i

theorem first_eq_first_iff : v.first n = w.first n ↔ ∀ i, i < n → v i = w i :=
  ⟨fun h i hi => congrFun h ⟨i, hi⟩, fun h => funext fun i => h i i.isLt⟩

/-- Every word is the beginning of some valuation. -/
theorem exists_first_eq (u : Lex (Fin n → Bool)) : ∃ v : Valuation, v.first n = u :=
  ⟨fun i => if h : i < n then u ⟨i, h⟩ else false, funext fun i => dif_pos i.isLt⟩

/-- **The lexicographic order**: where they differ for the first time, the smaller one is false. -/
theorem NoLater.first_le (h : w.NoLater v) : w.first n ≤ v.first n := by
  by_contra hlt
  obtain ⟨i, hbefore, hi⟩ := not_le.1 hlt
  have hagree : ∀ j, j < i.val → w j = v j := fun j hj =>
    (hbefore ⟨j, Nat.lt_trans hj i.isLt⟩ hj).symm
  obtain ⟨hv, hw⟩ := Bool.lt_iff.1 hi
  exact Bool.noConfusion (hv.symm.trans (h i hagree hw))

end Valuation

namespace Store

variable {s : Store} {r : Ref}

/-- **The least complete model**: of the false diagram it is false. For every other diagram it is
true of one word of values of the named variables only, the least one of which the diagram is
true, whatever other variables are. -/
theorem Reachable.leastModel_exact (hs : s.Reachable) (h : s.Has r) :
    let m := ((leastModel r).run s).1
    let t := ((leastModel r).run s).2
    (m = .bot ↔ r = .bot) ∧ t.variableCount = s.variableCount ∧
      (r ≠ .bot → ∃ w : Lex (Fin s.variableCount → Bool),
        (∀ v : Valuation, t.eval m v = true ↔ v.first s.variableCount = w) ∧
        (∀ v : Valuation, v.first s.variableCount = w → s.eval r v = true) ∧
        ∀ v : Valuation, s.eval r v = true → w ≤ v.first s.variableCount) := by
  intro m t
  have hv := hs.valid
  have hmodel : r ≠ .bot → ∃ w : Valuation,
      t.IsCube m (Assignment.below s.variableCount w) ∧ IsLeastModel (s.eval r) w := by
    intro hr
    obtain ⟨-, -, w, hcube, hleast, -⟩ := yields_leastModel h.denotes hr hv
    exact ⟨w, hcube, hleast⟩
  refine ⟨⟨?_, ?_⟩, variableCount_leastModel r s, fun hr => ?_⟩
  · intro hm
    by_contra hr
    obtain ⟨w, hcube, -⟩ := hmodel hr
    have htrue := (hcube.eval_iff w).2 (Assignment.admits_below_iff.2 fun _ _ => rfl)
    rw [hm, eval_bot] at htrue
    exact Bool.noConfusion htrue
  · rintro rfl
    rfl
  · obtain ⟨w, hcube, hleast⟩ := hmodel hr
    refine ⟨w.first s.variableCount, fun v => ?_, fun v hvw => ?_, fun v hrv => ?_⟩
    · rw [hcube.eval_iff, Assignment.admits_below_iff, Valuation.first_eq_first_iff]
    · rw [hv.eval_congr h (Valuation.first_eq_first_iff.1 hvw), hleast.holds]
    · exact (hleast.noLater v hrv).first_le

/-- Four variables have been named, and the diagram asks for the second one: in the model that one
is true, and the other three are false. -/
theorem leastModel_exact_fourVariables :
    let fourth := positive 3 .empty
    let second := positive 1 fourth.2
    let model := (leastModel second.1).run second.2
    second.2.Reachable ∧ second.2.Has second.1 ∧ second.1 ≠ .bot ∧ second.2.variableCount = 4 ∧
      ∀ v : Valuation, model.2.eval model.1 v = true ↔
        v 0 = false ∧ v 1 = true ∧ v 2 = false ∧ v 3 = false := by
  intro fourth second model
  have hfourth : fourth.2.Reachable := .step (.positive 3) .empty nofun
  have hsecond : second.2.Reachable := .step (.positive 1) hfourth nofun
  obtain ⟨-, -, hx, -⟩ := yields_positive 1 hfourth.valid
  have hcount : second.2.variableCount = 4 := by
    show (positive 1 (positive 3 .empty).2).2.variableCount = 4
    rw [variableCount_positive, variableCount_positive]
    rfl
  let u : Valuation := fun i => i == 1
  have hu : second.2.eval second.1 u = true := hx.eval_eq u
  have hne : second.1 ≠ .bot := by
    intro hbot
    rw [hbot, eval_bot] at hu
    exact Bool.noConfusion hu
  obtain ⟨-, -, hmodel⟩ := hsecond.leastModel_exact hx.has
  obtain ⟨w, hmodel, hholds, hleast⟩ := hmodel hne
  have hw : u.first second.2.variableCount = w := by
    obtain ⟨v, rfl⟩ := Valuation.exists_first_eq w
    refine le_antisymm (Valuation.NoLater.first_le fun i _ hi => ?_) (hleast u hu)
    obtain rfl : i = 1 := by simpa [u] using hi
    exact (hx.eval_eq v).symm.trans (hholds v rfl)
  refine ⟨hsecond, hx.has, hne, hcount, fun v => ?_⟩
  rw [hmodel, ← hw, Valuation.first_eq_first_iff, hcount]
  constructor
  · exact fun h => ⟨h 0 (by decide), h 1 (by decide), h 2 (by decide), h 3 (by decide)⟩
  · rintro ⟨h0, h1, h2, h3⟩ i hi
    obtain rfl | rfl | rfl | rfl : i = 0 ∨ i = 1 ∨ i = 2 ∨ i = 3 := by omega
    · exact h0
    · exact h1
    · exact h2
    · exact h3

end Store
end Diagram
end RouteSolver
