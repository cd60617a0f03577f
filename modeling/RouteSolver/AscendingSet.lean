/-
# Finite sets in ascending order

A finite set of ranked values, kept as the list of its members by ascending rank. The order is part
of the type, so the list of a set is unique and printing a set needs no sorting.
-/

namespace RouteSolver

/-- Values that have a rank among each other. -/
class Ranked (α : Type) where
  /-- The place of a value in the order. -/
  rank : α → Nat

instance : Ranked UInt32 := ⟨UInt32.toNat⟩

/-- A finite set, listed by ascending rank. -/
structure AscendingSet (α : Type) [Ranked α] where
  /-- The members. -/
  toList : List α
  /-- Ranks ascend. -/
  ascending : toList.Pairwise fun a b => Ranked.rank a < Ranked.rank b

namespace AscendingSet

variable {α : Type} [Ranked α]

instance [DecidableEq α] : DecidableEq (AscendingSet α) := fun s t =>
  if h : s.toList = t.toList then isTrue (by cases s; cases t; simp_all)
  else isFalse fun e => h (e ▸ rfl)

instance [Repr α] : Repr (AscendingSet α) := ⟨fun s n => reprPrec s.toList n⟩

/-- Put a value where it belongs, unless one of its rank is there. -/
def place (a : α) : List α → List α
  | [] => [a]
  | b :: bs =>
    if Ranked.rank a < Ranked.rank b then a :: b :: bs
    else if Ranked.rank a = Ranked.rank b then b :: bs
    else b :: place a bs

theorem of_mem_place {a b : α} {bs : List α} (h : b ∈ place a bs) : b = a ∨ b ∈ bs := by
  induction bs with
  | nil => simpa [place] using h
  | cons c cs ih =>
    rw [place] at h
    split at h
    · simpa using h
    · split at h
      · exact Or.inr h
      · rcases List.mem_cons.1 h with rfl | h
        · simp
        · rcases ih h with rfl | h <;> simp_all

theorem place_ascending (a : α) {bs : List α}
    (h : bs.Pairwise fun a b => Ranked.rank a < Ranked.rank b) :
    (place a bs).Pairwise fun a b => Ranked.rank a < Ranked.rank b := by
  induction bs with
  | nil => simp [place]
  | cons b bs ih =>
    obtain ⟨hb, hbs⟩ := List.pairwise_cons.1 h
    rw [place]
    split
    · rename_i hab
      refine List.pairwise_cons.2 ⟨fun c hc => ?_, h⟩
      rcases List.mem_cons.1 hc with rfl | hc
      · exact hab
      · exact Nat.lt_trans hab (hb c hc)
    · rename_i hab
      split
      · exact h
      · rename_i hne
        refine List.pairwise_cons.2 ⟨fun c hc => ?_, ih hbs⟩
        rcases of_mem_place hc with rfl | hc
        · omega
        · exact hb c hc

/-- The empty set. -/
def empty : AscendingSet α := ⟨[], .nil⟩

instance : Inhabited (AscendingSet α) := ⟨empty⟩

/-- The set of one value. -/
def single (a : α) : AscendingSet α := ⟨[a], by simp⟩

/-- Add a value. -/
def insert (a : α) (s : AscendingSet α) : AscendingSet α :=
  ⟨place a s.toList, place_ascending a s.ascending⟩

/-- The set of the values in a list. -/
def ofList (xs : List α) : AscendingSet α := xs.foldl (fun s a => s.insert a) empty

/-- Number of members. -/
def size (s : AscendingSet α) : Nat := s.toList.length

/-- Whether there is no member. -/
def isEmpty (s : AscendingSet α) : Bool := s.toList.isEmpty

end AscendingSet
end RouteSolver
