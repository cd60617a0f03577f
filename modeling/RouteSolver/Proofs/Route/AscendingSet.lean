/-
# Members of sets in ascending order

Where ranks tell values apart, the set of a list has the members of the list (`mem_ofList`), and a
set is determined by its members (`ext_mem`).
-/

import RouteSolver.AscendingSet
import RouteSolver.Community
import Mathlib.Data.List.Pairwise

namespace RouteSolver

/-- Values of one rank are equal. -/
class RankInjective (α : Type) [Ranked α] : Prop where
  /-- The rank tells values apart. -/
  rank_inj : ∀ {a b : α}, Ranked.rank a = Ranked.rank b → a = b

instance : RankInjective Community := ⟨Community.rank_injective⟩

instance : RankInjective UInt32 := ⟨UInt32.toNat_inj.1⟩

namespace AscendingSet

variable {α : Type} [Ranked α]

theorem nodup_of_ascending {xs : List α}
    (h : xs.Pairwise fun a b => Ranked.rank a < Ranked.rank b) : xs.Nodup := by
  rw [List.nodup_iff_pairwise_ne]
  refine h.imp fun hab => ?_
  rintro rfl
  exact Nat.lt_irrefl _ hab

/-- **A set is determined** by its members. -/
theorem ext_mem {s t : AscendingSet α} (h : ∀ a, a ∈ s.toList ↔ a ∈ t.toList) : s = t := by
  obtain ⟨xs, hxs⟩ := s
  obtain ⟨ys, hys⟩ := t
  have hperm : xs.Perm ys :=
    (List.perm_ext_iff_of_nodup (nodup_of_ascending hxs) (nodup_of_ascending hys)).2 h
  have heq : xs = ys := hperm.eq_of_pairwise
    (fun a b _ _ hab hba => absurd (Nat.lt_trans hab hba) (Nat.lt_irrefl _)) hxs hys
  cases heq
  rfl

variable [RankInjective α]

theorem mem_place {a b : α} {bs : List α} : b ∈ place a bs ↔ b = a ∨ b ∈ bs := by
  refine ⟨of_mem_place, ?_⟩
  induction bs with
  | nil => simp [place]
  | cons c cs ih =>
    rw [place]
    intro h
    split
    · simpa using h
    · split
      · rename_i hrank
        obtain rfl := RankInjective.rank_inj hrank
        rcases h with rfl | h
        · exact List.mem_cons_self
        · exact h
      · rcases h with rfl | h
        · exact List.mem_cons_of_mem _ (ih (.inl rfl))
        · rcases List.mem_cons.1 h with rfl | h
          · exact List.mem_cons_self
          · exact List.mem_cons_of_mem _ (ih (.inr h))

/-- **The set of a list** has the members of the list. -/
theorem mem_ofList {a : α} {xs : List α} : a ∈ (ofList xs).toList ↔ a ∈ xs := by
  have hfold : ∀ s : AscendingSet α,
      a ∈ (xs.foldl (fun s b => s.insert b) s).toList ↔ a ∈ xs ∨ a ∈ s.toList := by
    induction xs with
    | nil => simp
    | cons b xs ih =>
      intro s
      rw [List.foldl_cons, ih, insert, mem_place, List.mem_cons, or_left_comm, or_assoc]
  rw [ofList, hfold]
  exact or_iff_left List.not_mem_nil

theorem size_ofList {xs : List α} (h : xs.Nodup) : (ofList xs).size = xs.length :=
  List.Perm.length_eq ((List.perm_ext_iff_of_nodup (nodup_of_ascending (ofList xs).ascending) h).2
    fun _ => mem_ofList)

end AscendingSet
end RouteSolver
