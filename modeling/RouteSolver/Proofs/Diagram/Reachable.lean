/-
# Reachable stores

The stores that the operations lead to from the empty one (`Store.Reachable`), whatever the
operations are, in whatever order, on whatever diagrams are already there. All of them are valid
(`Store.Reachable.valid`), by one step for each operation.
-/

import RouteSolver.Proofs.Diagram.Model

namespace RouteSolver
namespace Diagram

/-- An operation on the diagrams of a store. -/
inductive Operation where
  | positive (i : Nat)
  | negative (i : Nat)
  | neg (a : Ref)
  | conj (a b : Ref)
  | disj (a b : Ref)
  | implies (a b : Ref)
  | conjAll (rs : List Ref)
  | disjAll (rs : List Ref)
  | pathCube (a : Ref)
  | leastModel (a : Ref)

namespace Operation

/-- What the operation does. -/
def run : Operation → Build Ref
  | positive i => Diagram.positive i
  | negative i => Diagram.negative i
  | neg a => Diagram.neg a
  | conj a b => Diagram.conj a b
  | disj a b => Diagram.disj a b
  | implies a b => Diagram.implies a b
  | conjAll rs => Diagram.conjAll rs
  | disjAll rs => Diagram.disjAll rs
  | pathCube a => Diagram.pathCube a
  | leastModel a => Diagram.leastModel a

/-- The diagrams that it takes. -/
def operands : Operation → List Ref
  | positive _ | negative _ => []
  | neg a | pathCube a | leastModel a => [a]
  | conj a b | disj a b | implies a b => [a, b]
  | conjAll rs | disjAll rs => rs

end Operation

namespace Store

variable {s : Store}

/-- The stores that operations lead to. -/
inductive Reachable : Store → Prop
  | empty : Reachable .empty
  | step {s : Store} (o : Operation) (hs : Reachable s) (ho : ∀ r ∈ o.operands, s.Has r) :
    Reachable (o.run s).2

theorem denoteAll_eval {rs : List Ref} (h : ∀ r ∈ rs, s.Has r) : s.DenoteAll rs (rs.map s.eval) :=
  List.forall₂_map_right_iff.2 (List.forall₂_same.2 fun r hr => (h r hr).denotes)

/-- **Every operation** on diagrams of a valid store yields a diagram. -/
theorem yields_run (o : Operation) (ho : ∀ r ∈ o.operands, s.Has r) :
    Yields s o.run fun r t => t.Has r := by
  cases o with
  | positive i => exact (yields_positive i).mono fun _ _ _ _ h => h.1.has
  | negative i => exact (yields_negative i).mono fun _ _ _ _ h => h.1.has
  | neg a =>
    exact (yields_neg (ho a (by simp [Operation.operands])).denotes).mono fun _ _ _ _ h => h.has
  | conj a b =>
    have ha := ho a (by simp [Operation.operands])
    have hb := ho b (by simp [Operation.operands])
    exact (yields_conj ha.denotes hb.denotes).mono fun _ _ _ _ h => h.has
  | disj a b =>
    have ha := ho a (by simp [Operation.operands])
    have hb := ho b (by simp [Operation.operands])
    exact (yields_disj ha.denotes hb.denotes).mono fun _ _ _ _ h => h.has
  | implies a b =>
    have ha := ho a (by simp [Operation.operands])
    have hb := ho b (by simp [Operation.operands])
    exact (yields_implies ha.denotes hb.denotes).mono fun _ _ _ _ h => h.has
  | conjAll rs => exact (yields_conjAll (denoteAll_eval ho)).mono fun _ _ _ _ h => h.has
  | disjAll rs => exact (yields_disjAll (denoteAll_eval ho)).mono fun _ _ _ _ h => h.has
  | pathCube a =>
    have ha := ho a (by simp [Operation.operands])
    by_cases hbot : a = .bot
    · rw [Operation.run, Diagram.pathCube, if_pos hbot]
      exact .pure fun hs => hs.has_bot
    · exact (yields_pathCube ha.denotes hbot).mono fun _ _ _ _ h => h.has
  | leastModel a =>
    have ha := ho a (by simp [Operation.operands])
    by_cases hbot : a = .bot
    · rw [Operation.run, Diagram.leastModel, if_pos hbot]
      exact .pure fun hs => hs.has_bot
    · exact (yields_leastModel ha.denotes hbot).mono fun _ _ _ _ h => h.choose_spec.1.has

/-- **Reachable stores are valid.** -/
theorem Reachable.valid (h : s.Reachable) : s.Valid := by
  induction h with
  | empty => exact valid_empty
  | step o _ ho ih => exact (yields_run o ho ih).1

/-- One more operation leads to a later reachable store, and to a diagram in it. -/
theorem Reachable.run (hs : s.Reachable) (o : Operation) (ho : ∀ r ∈ o.operands, s.Has r) :
    (o.run s).2.Reachable ∧ s ≤ (o.run s).2 ∧ (o.run s).2.Has (o.run s).1 :=
  ⟨.step o hs ho, (yields_run o ho hs.valid).2⟩

end Store
end Diagram
end RouteSolver
