/-
# Boolean operations step by step

Running two automata side by side numbers the pairs of states that are met and writes a row for
each. This goes on until every pair has a row, and it does end (`Valid.pairs_iff`). No pair is left
out and no two are taken for one: a byte string leads to the number of the pair that it leads to
(`Valid.run_sideBySide_eq_iff`). Minimizing then joins numbers exactly if no continuation is
accepted after the one and not after the other. So nothing that matters for the language is lost at
either step, and the Boolean operations are exact (`Constructed.product_exact`).
-/

import RouteSolver.Proofs.Automaton.Canonical

namespace RouteSolver
namespace Automaton

variable {a b : Automaton}

/-- Running both automata side by side without a bound comes to the automaton: pairs are numbered
as they are met, until every pair that has been met has a row. -/
def Pairs (a b : Automaton) (accept : Bool → Bool → Bool) (p : Automaton) : Prop :=
  Explores (a.alphabet.meet b.alphabet) (fun q : Nat × Nat => q.1 * b.size + q.2)
    (fun q x => (a.step q.1 x, b.step q.2 x))
    (fun q => accept (a.isAccepting q.1) (b.isAccepting q.2)) (0, 0) p

section
variable (ha : a.Valid) (hb : b.Valid) (accept : Bool → Bool → Bool)
include ha hb

/-- **Numbering pairs ends by itself**: without a bound it comes to the same automaton. -/
theorem Valid.pairs_iff (p : Automaton) : a.Pairs b accept p ↔ p = a.sideBySide b accept :=
  (explorable_sideBySide ha hb accept).explores_iff p

/-- **A number is a pair**: byte strings lead to one number exactly if they lead to one state of
either automaton. -/
theorem Valid.run_sideBySide_eq_iff (u v : List UInt8) :
    (a.sideBySide b accept).run u = (a.sideBySide b accept).run v ↔
      a.run u = a.run v ∧ b.run u = b.run v := by
  rw [Automaton.sideBySide, (explorable_sideBySide ha hb accept).run_explore_eq_iff,
    foldl_sideBySide, foldl_sideBySide]
  constructor
  · intro heq
    exact Prod.mk.inj (pair_eq_of_number_eq hb.toComplete (hb.run_lt u) (hb.run_lt v) heq)
  · rintro ⟨hu, hv⟩
    rw [hu, hv]

/-- **The numbers are those of pairs that are met**, without gaps. -/
theorem Valid.lt_size_sideBySide_iff (q : Nat) :
    q < (a.sideBySide b accept).size ↔ ∃ w, (a.sideBySide b accept).run w = q := by
  have hvalid := ha.sideBySide hb accept
  refine ⟨hvalid.exists_run_eq q, ?_⟩
  rintro ⟨w, rfl⟩
  exact hvalid.run_lt w

/-- **Minimizing joins numbers** exactly if no continuation tells them apart. -/
theorem Valid.run_minimize_sideBySide_eq_iff (u v : List UInt8) :
    (a.sideBySide b accept).minimize.run u = (a.sideBySide b accept).minimize.run v ↔
      ∀ w, accept (a.acceptsBytes (u ++ w)) (b.acceptsBytes (u ++ w)) =
        accept (a.acceptsBytes (v ++ w)) (b.acceptsBytes (v ++ w)) := by
  rw [(ha.sideBySide hb accept).run_minimize_eq_iff]
  simp only [ha.acceptsBytes_sideBySide hb]

end

/-- **The Boolean operations are exact** for all automata that can be made. What they accept is the
Boolean combination of what their operands accept. Both steps of a product end without any bound:
pairs are numbered so that each pair that is met has a number of its own, and numbers are joined
exactly if the same continuations are accepted after both. -/
theorem Constructed.product_exact (ha : a.Constructed) (hb : b.Constructed) :
    (∀ w, (a.inter b).acceptsBytes w = (a.acceptsBytes w && b.acceptsBytes w)) ∧
    (∀ w, (a.union b).acceptsBytes w = (a.acceptsBytes w || b.acceptsBytes w)) ∧
    (∀ w, (a.minus b).acceptsBytes w = (a.acceptsBytes w && !b.acceptsBytes w)) ∧
    (∀ w, a.compl.acceptsBytes w = !a.acceptsBytes w) ∧
    ∀ accept : Bool → Bool → Bool,
      (∀ p, a.Pairs b accept p ↔ p = a.sideBySide b accept) ∧
      (∀ u v, (a.sideBySide b accept).run u = (a.sideBySide b accept).run v ↔
        a.run u = a.run v ∧ b.run u = b.run v) ∧
      (∀ q, q < (a.sideBySide b accept).size ↔ ∃ w, (a.sideBySide b accept).run w = q) ∧
      (∀ m, (a.sideBySide b accept).Minimizes m ↔ m = (a.sideBySide b accept).minimize) ∧
      ∀ u v, (a.sideBySide b accept).minimize.run u = (a.sideBySide b accept).minimize.run v ↔
        ∀ w, accept (a.acceptsBytes (u ++ w)) (b.acceptsBytes (u ++ w)) =
          accept (a.acceptsBytes (v ++ w)) (b.acceptsBytes (v ++ w)) := by
  have ha := ha.valid
  have hb := hb.valid
  refine ⟨ha.acceptsBytes_inter hb, ha.acceptsBytes_union hb, ha.acceptsBytes_minus hb,
    ha.acceptsBytes_compl, fun accept => ?_⟩
  exact ⟨ha.pairs_iff hb accept, ha.run_sideBySide_eq_iff hb accept,
    ha.lt_size_sideBySide_iff hb accept, (ha.sideBySide hb accept).minimizes_iff,
    ha.run_minimize_sideBySide_eq_iff hb accept⟩

/-- Two texts of one length are read side by side. They lead to different pairs, and the union joins
these, since after either text only the empty one is accepted. -/
theorem product_exact_twoTexts :
    (ofText "ab").Constructed ∧ (ofText "ac").Constructed ∧
    ((ofText "ab").union (ofText "ac")).acceptsBytes [97, 99] = true ∧
    ((ofText "ab").inter (ofText "ac")).acceptsBytes [97, 99] = false ∧
    ((ofText "ab").sideBySide (ofText "ac") (· || ·)).run [97, 98] ≠
      ((ofText "ab").sideBySide (ofText "ac") (· || ·)).run [97, 99] ∧
    ((ofText "ab").union (ofText "ac")).run [97, 98] =
      ((ofText "ab").union (ofText "ac")).run [97, 99] := by
  have hab : ∀ w, (ofText "ab").acceptsBytes w = decide (w = [97, 98]) := fun w => by
    have hbytes : Utf8.bytes "ab" = [97, 98] := by decide
    rw [Bool.eq_iff_iff, ofText, acceptsBytes_ofBytes, hbytes, decide_eq_true_iff]
  have hac : ∀ w, (ofText "ac").acceptsBytes w = decide (w = [97, 99]) := fun w => by
    have hbytes : Utf8.bytes "ac" = [97, 99] := by decide
    rw [Bool.eq_iff_iff, ofText, acceptsBytes_ofBytes, hbytes, decide_eq_true_iff]
  have hmade : (ofText "ab").Constructed := .ofText _
  have hmade' : (ofText "ac").Constructed := .ofText _
  obtain ⟨hinter, hunion, -, -, hproduct⟩ := hmade.product_exact hmade'
  obtain ⟨-, hrun, -, -, hjoined⟩ := hproduct (· || ·)
  refine ⟨hmade, hmade', ?_, ?_, ?_, ?_⟩
  · rw [hunion, hab, hac]
    decide
  · rw [hinter, hab, hac]
    decide
  · rw [Ne, hrun]
    rintro ⟨heq, -⟩
    have hacc : (ofText "ab").acceptsBytes [97, 98] = (ofText "ab").acceptsBytes [97, 99] :=
      congrArg (ofText "ab").isAccepting heq
    rw [hab, hab] at hacc
    exact absurd hacc (by decide)
  · refine (hjoined _ _).2 fun w => ?_
    simp [hab, hac]

end Automaton
end RouteSolver
