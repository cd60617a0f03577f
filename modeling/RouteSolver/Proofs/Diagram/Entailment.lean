/-
# Entailment is exact

`Store.separates` looks for a valuation that makes one diagram true and another one false, and adds
no node. It finds one whenever there is one (`Store.Valid.separates_iff`), so `Store.entails` is
entailment (`Store.Valid.entails_iff`). The record of earlier answers is an invariant of the
recursion: every answer in it is right.
-/

import RouteSolver.Proofs.Diagram.Connective

namespace RouteSolver
namespace Diagram
namespace Store

variable {s : Store} {a b : Ref} {f g : Valuation → Bool}

/-- Some valuation makes `a` true and `b` false. -/
def Separated (s : Store) (a b : Ref) : Prop := ∃ v, s.eval a v = true ∧ s.eval b v = false

/-- Every recorded answer is right. -/
def RightAnswers (s : Store) (seen : Compared) : Prop :=
  ∀ (a b : Ref) (c : Bool), seen[(a, b)]? = some c → (c = true ↔ s.Separated a b)

/-- A valuation separates two diagrams if one separates their cofactors on one side. -/
theorem separated_iff_cofactors (hs : s.Valid) (ha : s.Has a) (hb : s.Has b)
    (hca : a.isConstant = false) (hcb : b.isConstant = false) {i : Nat}
    (hia : i ≤ (s.node a).level) (hib : i ≤ (s.node b).level) :
    s.Separated a b ↔ s.Separated (s.cofactors a i).1 (s.cofactors b i).1 ∨
      s.Separated (s.cofactors a i).2 (s.cofactors b i).2 := by
  obtain ⟨ha0, ha1⟩ := hs.denotes_cofactors ha.denotes hca hia
  obtain ⟨hb0, hb1⟩ := hs.denotes_cofactors hb.denotes hcb hib
  constructor
  · rintro ⟨v, hav, hbv⟩
    rw [← cofactor_self (s.eval a) i v] at hav
    rw [← cofactor_self (s.eval b) i v] at hbv
    cases hv : v i <;> rw [hv] at hav hbv
    · exact .inl ⟨v, (ha0.eval_eq v).trans hav, (hb0.eval_eq v).trans hbv⟩
    · exact .inr ⟨v, (ha1.eval_eq v).trans hav, (hb1.eval_eq v).trans hbv⟩
  · rintro (⟨v, hav, hbv⟩ | ⟨v, hav, hbv⟩)
    · exact ⟨_, (ha0.eval_eq v).symm.trans hav, (hb0.eval_eq v).symm.trans hbv⟩
    · exact ⟨_, (ha1.eval_eq v).symm.trans hav, (hb1.eval_eq v).symm.trans hbv⟩

/-- Started with right answers, the computation answers whether `p` holds and keeps them right. -/
def Answers (s : Store) (m : StateM Compared Bool) (p : Prop) : Prop :=
  ∀ seen, s.RightAnswers seen → ((m seen).1 = true ↔ p) ∧ s.RightAnswers (m seen).2

namespace Answers

variable {m : StateM Compared Bool} {k : Bool → StateM Compared Bool} {p q : Prop}

theorem pure {c : Bool} (h : c = true ↔ p) : s.Answers (Pure.pure c) p := fun _ hseen => ⟨h, hseen⟩

theorem bind (hm : s.Answers m q) (hk : ∀ c : Bool, (c = true ↔ q) → s.Answers (k c) p) :
    s.Answers (m >>= k) p := fun seen hseen => hk _ (hm seen hseen).1 _ (hm seen hseen).2

theorem get {k : Compared → StateM Compared Bool}
    (h : ∀ seen, s.RightAnswers seen → s.Answers (k seen) p) :
    s.Answers (MonadState.get >>= k) p := fun seen hseen => h seen hseen seen hseen

/-- Recording a right answer. -/
theorem record {c : Bool} (h : c = true ↔ s.Separated a b) :
    s.Answers (do modify fun seen => seen.insert (a, b) c; return c) (s.Separated a b) := by
  refine fun seen hseen => ⟨h, fun a' b' c' hc' => ?_⟩
  change (seen.insert (a, b) c)[(a', b')]? = some c' at hc'
  rw [Std.HashMap.getElem?_insert] at hc'
  split at hc'
  · rename_i heq
    obtain ⟨rfl, rfl⟩ := Prod.mk.inj (eq_of_beq heq)
    obtain rfl := Option.some.inj hc'
    exact h
  · exact hseen a' b' c' hc'

end Answers

theorem Valid.separatesWithin_spec (hs : s.Valid) (n : Nat) (hn : a.id + b.id < n) (ha : s.Has a)
    (hb : s.Has b) : s.Answers (s.separatesWithin n a b) (s.Separated a b) := by
  induction n generalizing a b with
  | zero => exact absurd hn (Nat.not_lt_zero _)
  | succ n ih =>
    rw [separatesWithin]
    split
    · rename_i hno
      refine .pure ⟨fun h => Bool.noConfusion h, fun ⟨v, hav, hbv⟩ => ?_⟩
      rcases hno with rfl | rfl | rfl
      · exact absurd hav (by simp)
      · exact absurd hbv (by simp)
      · exact absurd (hav.symm.trans hbv) (by simp)
    rename_i hno
    rw [not_or, not_or] at hno
    split
    · rename_i hyes
      refine .pure ⟨fun _ => ?_, fun _ => rfl⟩
      rcases hyes with rfl | rfl
      · obtain ⟨v, hv⟩ := hs.exists_eval_eq_false hb hno.2.1
        exact ⟨v, rfl, hv⟩
      · obtain ⟨v, hv⟩ := hs.exists_eval_eq_true ha hno.1
        exact ⟨v, hv, rfl⟩
    rename_i hyes
    rw [not_or] at hyes
    have hca := Ref.isConstant_eq_false_iff.2 ⟨hno.1, hyes.1⟩
    have hcb := Ref.isConstant_eq_false_iff.2 ⟨hyes.2, hno.2.1⟩
    refine .get fun seen hseen => ?_
    split
    · rename_i c hc
      exact .pure (hseen a b c hc)
    dsimp only
    generalize hi : min (s.node a).level (s.node b).level = i
    have hia : i ≤ (s.node a).level := by omega
    have hib : i ≤ (s.node b).level := by omega
    obtain ⟨ha0, ha1⟩ := hs.denotes_cofactors ha.denotes hca hia
    obtain ⟨hb0, hb1⟩ := hs.denotes_cofactors hb.denotes hcb hib
    have hsum := hs.cofactors_id_add_lt ha hb hca hcb hi
    refine (ih (by omega) ha0.has hb0.has).bind fun low hlow => ?_
    have hsep := separated_iff_cofactors hs ha hb hca hcb hia hib
    split
    · rename_i htrue
      have hyes : true = true ↔ s.Separated a b :=
        ⟨fun _ => hsep.2 (.inl (hlow.1 htrue)), fun _ => rfl⟩
      exact (Answers.pure hyes).bind fun c hc => .record hc
    · rename_i hfalse
      refine (ih (by omega) ha1.has hb1.has).bind fun c hc => .record (hc.trans ?_)
      rw [hsep]
      exact (or_iff_right fun h => hfalse (hlow.2 h)).symm

/-- **Separation is exact**: a separating valuation is found when there is one. -/
theorem Valid.separates_iff (hs : s.Valid) (ha : s.Has a) (hb : s.Has b) :
    s.separates a b = true ↔ ∃ v, s.eval a v = true ∧ s.eval b v = false := by
  refine (hs.separatesWithin_spec _ (Nat.lt_succ_self _) ha hb ∅ fun a b c hc => ?_).1
  rw [Std.HashMap.getElem?_empty] at hc
  nomatch hc

/-- **Entailment is exact.** -/
theorem Valid.entails_iff (hs : s.Valid) (ha : s.Denotes a f) (hb : s.Denotes b g) :
    s.entails a b = true ↔ ∀ v, f v = true → g v = true := by
  rw [entails, Bool.not_eq_true', ← Bool.not_eq_true, hs.separates_iff ha.has hb.has, not_exists]
  refine forall_congr' fun v => ?_
  rw [ha.eval_eq, hb.eval_eq, not_and, Bool.not_eq_false]

end Store
end Diagram
end RouteSolver
