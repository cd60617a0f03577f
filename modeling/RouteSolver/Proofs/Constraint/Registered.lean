/-
# Constraints that have a formula

A constraint has a formula when the domain knows all names that it mentions and every community is
named in exactly one way (`Constraint.Registered`, `total_formula`). Building diagrams never fails,
so only the look-ups count.
-/

import RouteSolver.Scenario
import RouteSolver.Proofs.Encoding.Layout

namespace RouteSolver

open Diagram

/-! ### Computations that cannot fail -/

/-- The computation gives a result in every store. -/
def Total {α : Type} (m : FormulaBuild α) : Prop := ∀ s, ∃ a, (m.run s).1 = .ok a

namespace Total

variable {α β : Type} {m : FormulaBuild α} {k : α → FormulaBuild β}

theorem pure (a : α) : Total (Pure.pure a) := fun _ => ⟨a, rfl⟩

theorem bind (hm : Total m) (hk : ∀ a, Total (k a)) : Total (m >>= k) := by
  intro s
  rcases hms : m.run s with ⟨x, t⟩
  obtain ⟨a, ha⟩ := hm s
  rw [hms] at ha
  obtain rfl : x = .ok a := ha
  rw [ExceptT.run_bind]
  simp only [Bind.bind, StateT.bind, hms]
  exact hk a t

theorem lift (m : Build α) : Total (liftM m : FormulaBuild α) := fun s => ⟨(m s).1, rfl⟩

theorem ofExcept {x : Except ConstraintError α} (h : ∃ a, x = .ok a) :
    Total (liftExcept x : FormulaBuild α) := by
  obtain ⟨a, rfl⟩ := h
  exact .pure a

theorem liftM_bind {x : Except ConstraintError α} {a : α} (hx : x = .ok a) (hk : Total (k a)) :
    Total ((liftM x : FormulaBuild α) >>= k) := by
  subst hx
  exact hk

end Total

/-! ### Constraints whose names are known -/

mutual
/-- The domain knows all names that the constraint mentions, and every community is named in exactly
one way. -/
def Constraint.Registered (d : Domain) : Constraint → Prop
  | .community literal regex =>
    ∃ pattern ns, communityPattern literal regex = .ok pattern ∧ d.communities? pattern = some ns
  | .asPath regex => ∃ ns, d.asPaths? regex = some ns
  | .nextHopInterface name => name ∈ d.nextHopInterfaces
  | .track name => name ∈ d.tracks
  | .sourceVrf name => name ∈ d.sourceVrfs
  | .not c => c.Registered d
  | .allOf cs => Constraint.AllRegistered d cs
  | .anyOf cs => Constraint.AllRegistered d cs
  | .protocol _ | .originType _ | .within _ _ _ | .prefixWithin _ _ _ | .nextHopWithin _ => True

/-- All of the constraints have their names registered. -/
def Constraint.AllRegistered (d : Domain) : List Constraint → Prop
  | [] => True
  | c :: cs => c.Registered d ∧ Constraint.AllRegistered d cs
end

section
variable {d : Domain} {l : Layout} {s : Store}

theorem exists_namedVariable {names : List String} {xs : List Ref} {name : String}
    (hlen : xs.length = names.length) (h : name ∈ names) (kind : NameKind) :
    ∃ x, namedVariable kind names xs name = .ok x := by
  obtain ⟨i, hi⟩ := Option.isSome_iff_exists.1 (List.isSome_idxOf?.2 h)
  obtain ⟨hlt, -, -⟩ := List.idxOf?_eq_some_iff.1 hi
  rw [namedVariable, hi, Option.bind_some, List.getElem?_eq_getElem (hlen ▸ hlt)]
  exact ⟨_, rfl⟩

mutual
/-- **A registered constraint has a formula.** -/
theorem total_formula (hl : l.Over d s) :
    ∀ c : Constraint, c.Registered d → Total (c.formula l d)
  | .protocol _, _ => .lift _
  | .originType _, _ => .lift _
  | .within _ _ _, _ => .lift _
  | .prefixWithin _ _ _, _ => .bind (.lift _) fun _ => .bind (.lift _) fun _ => .lift _
  | .nextHopWithin _, _ => .lift _
  | .community literal regex, h => by
    obtain ⟨pattern, ns, hpattern, hns⟩ := h
    rw [Constraint.formula]
    refine .liftM_bind hpattern ?_
    rw [hns]
    exact .lift _
  | .asPath regex, h => by
    obtain ⟨ns, hns⟩ := h
    rw [Constraint.formula, hns]
    exact .lift _
  | .nextHopInterface _, h => .ofExcept (exists_namedVariable hl.nextHopInterfaces.length_eq h _)
  | .track _, h => .ofExcept (exists_namedVariable hl.tracks.length_eq h _)
  | .sourceVrf _, h => .ofExcept (exists_namedVariable hl.sourceVrfs.length_eq h _)
  | .not c, h => .bind (total_formula hl c h) fun _ => .lift _
  | .allOf cs, h => .bind (total_formulas hl cs h) fun _ => .lift _
  | .anyOf cs, h => .bind (total_formulas hl cs h) fun _ => .lift _

theorem total_formulas (hl : l.Over d s) :
    ∀ cs : List Constraint, Constraint.AllRegistered d cs → Total (Constraint.formulas l d cs)
  | [], _ => .pure _
  | c :: cs, h => .bind (total_formula hl c h.1) fun _ =>
      .bind (total_formulas hl cs h.2) fun _ => .pure _
end

/-- **A scenario with registered constraints has a formula.** -/
theorem total_scenarioFormula (hl : l.Over d s) {sc : Scenario}
    (h : Constraint.AllRegistered d sc.constraints) : Total (sc.formula l d) :=
  .bind (.lift _) fun _ => .bind (total_formulas hl _ h) fun _ => .lift _

end

end RouteSolver
