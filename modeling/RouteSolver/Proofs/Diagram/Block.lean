/-
# Blocks of variables

Bit vectors and choices are laid out over consecutive variables. The diagrams of such a block are
its variables, which have been named (`Store.LaysOut`), and what a valuation gives to them is one
list of bits (`block`).
-/

import RouteSolver.Proofs.Diagram.Counting

namespace RouteSolver

open Diagram

/-- The bits that a valuation gives to consecutive variables. -/
def block (v : Valuation) (first count : Nat) : List Bool := (List.range' first count).map v

theorem length_block (v : Valuation) (first count : Nat) :
    (block v first count).length = count := by
  rw [block, List.length_map, List.length_range']

theorem getElem?_block (v : Valuation) (first : Nat) {count i : Nat} (h : i < count) :
    (block v first count)[i]? = some (v (first + i)) := by
  rw [block, List.getElem?_map, List.getElem?_range' h, Option.map_some, Nat.one_mul]

theorem block_congr {v w : Valuation} {first count : Nat}
    (h : ∀ i, first ≤ i → i < first + count → v i = w i) :
    block v first count = block w first count :=
  List.map_congr_left fun i hi => h i (List.mem_range'_1.1 hi).1 (List.mem_range'_1.1 hi).2

theorem eq_of_block_eq {v w : Valuation} {first count : Nat}
    (h : block v first count = block w first count) {i : Nat} (hi : first ≤ i)
    (hi' : i < first + count) : v i = w i :=
  List.map_inj_left.1 h i (List.mem_range'_1.2 ⟨hi, hi'⟩)

namespace Diagram

/-- The values of consecutive variables. -/
def consecutive (first count : Nat) : List (Valuation → Bool) :=
  (List.range' first count).map fun i v => v i

theorem length_consecutive (first count : Nat) : (consecutive first count).length = count := by
  rw [consecutive, List.length_map, List.length_range']

theorem values_consecutive (first count : Nat) (v : Valuation) :
    values (consecutive first count) v = block v first count := by
  rw [values, consecutive, List.map_map]
  rfl

/-- The diagrams are the variables from `first` on, which have been named. -/
structure Store.LaysOut (s : Store) (xs : List Ref) (first count : Nat) : Prop where
  denoteAll : s.DenoteAll xs (consecutive first count)
  named : ∀ i, first ≤ i → i < first + count → i < s.variableCount

namespace Store.LaysOut

variable {s t : Store} {xs : List Ref} {first count : Nat}

theorem mono (h : s.LaysOut xs first count) (hs : s.Valid) (hst : s ≤ t) :
    t.LaysOut xs first count :=
  ⟨Store.DenoteAll.mono h.denoteAll hs hst, fun i hi hi' =>
    Nat.lt_of_lt_of_le (h.named i hi hi') hst.variableCount_le⟩

theorem length_eq (h : s.LaysOut xs first count) : xs.length = count :=
  (List.Forall₂.length_eq h.denoteAll).trans (length_consecutive _ _)

theorem denotes (h : s.LaysOut xs first count) {i : Nat} {x : Ref} (hi : xs[i]? = some x) :
    s.Denotes x fun v => v (first + i) := by
  obtain ⟨hlt, rfl⟩ := List.getElem?_eq_some_iff.1 hi
  have hlt' : i < (consecutive first count).length := List.Forall₂.length_eq h.denoteAll ▸ hlt
  have hget := List.Forall₂.get h.denoteAll hlt hlt'
  simpa [consecutive] using hget

/-- There is a diagram for every place. -/
theorem exists_denotes (h : s.LaysOut xs first count) {i : Nat} (hi : i < count) :
    ∃ x, xs[i]? = some x ∧ s.Denotes x fun v => v (first + i) := by
  have hx := List.getElem?_eq_getElem (h.length_eq.symm ▸ hi)
  exact ⟨_, hx, h.denotes hx⟩

/-- If all variables before the first one have been named, so have been all up to the last one. -/
theorem variableCount_le (h : s.LaysOut xs first count) (hfirst : first ≤ s.variableCount) :
    first + count ≤ s.variableCount := by
  by_contra hlt
  exact Nat.lt_irrefl _ (h.named s.variableCount hfirst (Nat.lt_of_not_le hlt))

end Store.LaysOut

variable {s : Store}

theorem yields_positives (first count : Nat) :
    Yields s ((List.range' first count).mapM positive) fun xs t => t.LaysOut xs first count :=
  (yields_mapM_positive _).mono fun _ _ _ _ h => ⟨h.1, fun i hi hi' =>
    h.2 i (List.mem_range'_1.2 ⟨hi, hi'⟩)⟩

theorem yields_bitVectorLayOut (first width : Nat) :
    Yields s (BitVector.layOut first width) fun x t => t.LaysOut x.bits first width :=
  (yields_positives first width).bind fun _ _ _ _ h => .pure fun _ => h

theorem yields_choiceLayOut {α : Type} [DecidableEq α] (first : Nat) (alternatives : List α)
    (fallback : α) : Yields s (Choice.layOut first alternatives fallback) fun c t =>
      t.LaysOut c.selectors first alternatives.length ∧ c.alternatives = alternatives :=
  (yields_positives first alternatives.length).bind fun _ _ _ _ h => .pure fun _ => ⟨h, rfl⟩

end Diagram
end RouteSolver
