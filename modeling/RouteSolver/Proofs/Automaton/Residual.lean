/-
# What a state accepts

A state accepts the byte strings that lead from it to acceptance (`acceptsFrom`). Refining tells two
states apart exactly if some byte string does (`Complete.classes_eq_iff`): a round splits a class
only if the successors are apart already, and where the partition stands still states of one class
accept alike for ever. So after minimizing two byte strings lead to one state exactly if the same
continuations are accepted after them (`Complete.run_minimize_eq_iff`).

In an automaton that is reduced, different states accept different byte strings. All automata that
can be made are (`Constructed.reduced`), those of a single text without having been minimized. Their
states are the left quotients of the language, one state for each
(`Valid.size_eq_ncard_leftQuotient`).
-/

import RouteSolver.Proofs.Automaton.Constructed
import Mathlib.Computability.MyhillNerode
import Mathlib.Data.Set.Card

namespace RouteSolver
namespace Automaton

/-- Whether a byte string leads from a state to acceptance. -/
def acceptsFrom (a : Automaton) (q : Nat) (w : List UInt8) : Bool :=
  a.isAccepting (w.foldl a.step q)

theorem acceptsFrom_nil (a : Automaton) (q : Nat) : a.acceptsFrom q [] = a.isAccepting q := rfl

theorem acceptsFrom_cons (a : Automaton) (q : Nat) (x : UInt8) (w : List UInt8) :
    a.acceptsFrom q (x :: w) = a.acceptsFrom (a.step q x) w := rfl

theorem acceptsBytes_append (a : Automaton) (u w : List UInt8) :
    a.acceptsBytes (u ++ w) = a.acceptsFrom (a.run u) w := by
  rw [acceptsBytes, run_append, acceptsFrom]

variable {a : Automaton}

/-! ### Classes -/

/-- **States of one class** accept the same byte strings. -/
theorem Congruence.acceptsFrom_eq (h : a.Complete) {classes : Array Nat} (hc : a.Congruence classes)
    {q r : Nat} (hq : q < a.size) (hr : r < a.size) (heq : classes.getD q 0 = classes.getD r 0)
    (w : List UInt8) : a.acceptsFrom q w = a.acceptsFrom r w := by
  induction w generalizing q r with
  | nil =>
    rw [acceptsFrom_nil, acceptsFrom_nil]
    exact hc.accept q r hq hr heq
  | cons x w ih =>
    rw [acceptsFrom_cons, acceptsFrom_cons]
    exact ih (h.step_lt hq x) (h.step_lt hr x) (hc.step q r x hq hr heq)

/-- **States that accept the same** are never put into different classes. -/
theorem Stabilizes.eq_of_acceptsFrom (h : a.Complete) {count : Nat} {classes last : Array Nat}
    (hlast : a.Stabilizes count classes last) (hclasses : Classing a.size (classes.getD · 0) count)
    (heq : ∀ q r, q < a.size → r < a.size → (∀ w, a.acceptsFrom q w = a.acceptsFrom r w) →
      classes.getD q 0 = classes.getD r 0) {q r : Nat} (hq : q < a.size) (hr : r < a.size)
    (hqr : ∀ w, a.acceptsFrom q w = a.acceptsFrom r w) : last.getD q 0 = last.getD r 0 := by
  -- a round of refinement keeps such states together, since their successors accept the same
  have round : ∀ {count : Nat} {classes : Array Nat}, Classing a.size (classes.getD · 0) count →
      (∀ q r, q < a.size → r < a.size → (∀ w, a.acceptsFrom q w = a.acceptsFrom r w) →
        classes.getD q 0 = classes.getD r 0) →
      ∀ q r, q < a.size → r < a.size → (∀ w, a.acceptsFrom q w = a.acceptsFrom r w) →
        (a.refine classes).codes.getD q 0 = (a.refine classes).codes.getD r 0 := by
    intro count classes hclasses heq q r hq hr hqr
    obtain ⟨-, hcode, -, -⟩ := h.refine_spec hclasses
    exact (hcode q r hq hr).2 ⟨heq q r hq hr hqr, fun x =>
      heq _ _ (h.step_lt hq x) (h.step_lt hr x) fun w => hqr (x :: w)⟩
  induction hlast with
  | stop => exact round hclasses heq q r hq hr hqr
  | more _ _ ih => exact ih (h.refine_spec hclasses).1 (round hclasses heq)

/-- **Classes are exact**: two states are of one class if they accept the same byte strings, and
only then. -/
theorem Complete.classes_eq_iff (h : a.Complete) {q r : Nat} (hq : q < a.size) (hr : r < a.size) :
    a.classes.getD q 0 = a.classes.getD r 0 ↔ ∀ w, a.acceptsFrom q w = a.acceptsFrom r w :=
  ⟨fun heq => h.congruence_classes.acceptsFrom_eq h hq hr heq,
    h.stabilizes_classes.eq_of_acceptsFrom h a.classing_isAccepting
      (fun _ _ hq hr hqr => (code_range_eq_iff a.isAccepting a.size hq hr).2 (hqr [])) hq hr⟩

/-- **Byte strings lead to one state** of the minimal automaton exactly if they have the same
continuations in the language. -/
theorem Complete.run_minimize_eq_iff (h : a.Complete) (u v : List UInt8) :
    a.minimize.run u = a.minimize.run v ↔
      ∀ w, a.acceptsBytes (u ++ w) = a.acceptsBytes (v ++ w) := by
  have hexp := h.explorable_classes
  rw [Automaton.minimize, hexp.valid_explore.run_mergeLetters, hexp.valid_explore.run_mergeLetters,
    hexp.run_explore_eq_iff]
  simp only [acceptsBytes_append]
  exact h.classes_eq_iff (h.run_lt u) (h.run_lt v)

/-! ### Reduced automata -/

/-- Different states accept different byte strings. -/
def Reduced (a : Automaton) : Prop := ∀ q r, q < a.size → r < a.size →
  (∀ w, a.acceptsFrom q w = a.acceptsFrom r w) → q = r

/-- The automaton is reduced if byte strings with the same continuations lead to one state. -/
theorem Valid.reduced_iff (h : a.Valid) : a.Reduced ↔
    ∀ u v, (∀ w, a.acceptsBytes (u ++ w) = a.acceptsBytes (v ++ w)) → a.run u = a.run v := by
  simp only [acceptsBytes_append]
  constructor
  · exact fun hred u v huv => hred _ _ (h.run_lt u) (h.run_lt v) huv
  · intro hrun q r hq hr hqr
    obtain ⟨u, rfl⟩ := h.exists_run_eq q hq
    obtain ⟨v, rfl⟩ := h.exists_run_eq r hr
    exact hrun u v hqr

theorem Complete.reduced_minimize (h : a.Complete) : a.minimize.Reduced := by
  rw [h.valid_minimize.reduced_iff]
  simp only [h.acceptsBytes_minimize]
  exact fun u v => (h.run_minimize_eq_iff u v).2

/-- **The automaton of a byte string** is reduced as it is laid out: what is still to be read after
the beginning of the string tells this beginning from all other strings. -/
theorem reduced_ofBytes (w : List UInt8) : (ofBytes w).Reduced := by
  rw [(valid_ofBytes w).reduced_iff]
  intro u v huv
  have hiff : ∀ x, u ++ x = w ↔ v ++ x = w := fun x => by
    rw [← acceptsBytes_ofBytes, ← acceptsBytes_ofBytes, huv x]
  rw [run_ofBytes, run_ofBytes]
  by_cases hu : u <+: w
  · obtain ⟨x, rfl⟩ := hu
    rw [List.append_cancel_right ((hiff x).1 rfl)]
  · by_cases hv : v <+: w
    · obtain ⟨x, rfl⟩ := hv
      rw [List.append_cancel_right ((hiff x).2 rfl)]
    · rw [if_neg hu, if_neg hv]

/-- A single state is no other than itself. -/
theorem reduced_single (accepting : Bool) : Reduced ⟨.unit, #[accepting], #[#[0]]⟩ :=
  fun _ _ hq hr _ => (Nat.lt_one_iff.1 hq).trans (Nat.lt_one_iff.1 hr).symm

theorem Valid.reduced_compl (h : a.Valid) (ha : a.Reduced) : a.compl.Reduced := by
  rw [h.compl.reduced_iff]
  simp only [h.acceptsBytes_compl, Bool.not_eq_eq_eq_not, Bool.not_not, run_compl]
  exact h.reduced_iff.1 ha

/-- **Every automaton** that can be made is reduced. -/
theorem Constructed.reduced (h : a.Constructed) : a.Reduced := by
  induction h with
  | nothing => exact reduced_single false
  | anything => exact reduced_single true
  | ofText text => exact reduced_ofBytes _
  | ofExpr e => exact (Regex.Reading.explorable e).valid_explore.reduced_minimize
  | inter ha hb _ _ => exact (ha.valid.sideBySide hb.valid _).reduced_minimize
  | union ha hb _ _ => exact (ha.valid.sideBySide hb.valid _).reduced_minimize
  | minus ha hb _ _ => exact (ha.valid.sideBySide hb.valid _).reduced_minimize
  | compl ha ih => exact ha.valid.reduced_compl ih

/-! ### States and left quotients -/

/-- The language of the automaton, of which left quotients can be taken. -/
def language (a : Automaton) : Language UInt8 := {w | a.acceptsBytes w = true}

theorem leftQuotient_eq_iff {u v : List UInt8} :
    a.language.leftQuotient u = a.language.leftQuotient v ↔
      ∀ w, a.acceptsBytes (u ++ w) = a.acceptsBytes (v ++ w) := by
  rw [Language.ext_iff]
  exact forall_congr' fun w => Bool.eq_iff_iff.symm

/-- **States are left quotients**: a reduced automaton has one state for each class of byte strings
that have the same continuations in the language. -/
theorem Valid.size_eq_ncard_leftQuotient (h : a.Valid) (ha : a.Reduced) :
    a.size = (Set.range a.language.leftQuotient).ncard := by
  have hrun : ∀ {u v : List UInt8},
      a.language.leftQuotient u = a.language.leftQuotient v ↔ a.run u = a.run v := by
    intro u v
    rw [leftQuotient_eq_iff]
    refine ⟨h.reduced_iff.1 ha u v, fun heq w => ?_⟩
    rw [acceptsBytes_append, acceptsBytes_append, heq]
  choose path hpath using h.exists_run_eq
  refine (Set.ncard_eq_of_bijective (fun q hq => a.language.leftQuotient (path q hq)) ?_ ?_ ?_).symm
  · rintro _ ⟨u, rfl⟩
    exact ⟨a.run u, h.run_lt u, hrun.2 (hpath _ _)⟩
  · exact fun q hq => ⟨path q hq, rfl⟩
  · intro q r hq hr heq
    rw [← hpath q hq, ← hpath r hr]
    exact hrun.1 heq

end Automaton
end RouteSolver
