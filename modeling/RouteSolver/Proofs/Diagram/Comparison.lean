/-
# Comparisons are exact

What the comparisons of a bit vector with a constant decide, for every vector that can be laid out:
they compare the integer that a valuation writes in the variables of the vector, the most
significant bit first (`Store.Reachable.comparisons_exact`). The constant may be any number. One
that the vector is too narrow for is equal to none of its values and greater than all of them.
-/

import RouteSolver.Proofs.Diagram.Composed

namespace RouteSolver
namespace Diagram
namespace Store

variable {s : Store} {x : BitVector} {first width : Nat}

theorem value_consecutive (first width : Nat) (v : Valuation) :
    Bits.value (values (consecutive first width) v) = Bits.value (block v first width) :=
  congrArg Bits.value (values_consecutive first width v)

theorem Reachable.decides_eq (hs : s.Reachable) (hx : s.LaysOut x.bits first width) (n : Nat) :
    s.Decides (x.eq n) fun v => Bits.value (block v first width) = n :=
  hs.decides (leads_bitVectorEq hx.hasAll n) (yields_eq hx.denoteAll n) fun v => by
    rw [decide_eq_true_iff, value_consecutive]

theorem Reachable.decides_ge (hs : s.Reachable) (hx : s.LaysOut x.bits first width) (n : Nat) :
    s.Decides (x.ge n) fun v => n ≤ Bits.value (block v first width) :=
  hs.decides (leads_bitVectorGe hx.hasAll n) (yields_ge hx.denoteAll n) fun v => by
    rw [decide_eq_true_iff, value_consecutive]

theorem Reachable.decides_le (hs : s.Reachable) (hx : s.LaysOut x.bits first width) (n : Nat) :
    s.Decides (x.le n) fun v => Bits.value (block v first width) ≤ n :=
  hs.decides (leads_bitVectorLe hx.hasAll n) (yields_le hx.denoteAll n) fun v => by
    rw [decide_eq_true_iff, value_consecutive]

theorem Reachable.decides_between (hs : s.Reachable) (hx : s.LaysOut x.bits first width)
    (lo hi : Nat) : s.Decides (x.between lo hi) fun v =>
      lo ≤ Bits.value (block v first width) ∧ Bits.value (block v first width) ≤ hi :=
  hs.decides (leads_bitVectorBetween hx.hasAll lo hi) (yields_between hx.denoteAll lo hi)
    fun v => by rw [decide_eq_true_iff, value_consecutive]

/-- What has been laid out is not too wide, and it is there in the reachable store that follows. -/
theorem Reachable.of_layOut? {t : Store} (hs : s.Reachable)
    (hx : (BitVector.layOut? first width).map (·.run s) = .ok (x, t)) :
    width ≤ BitVector.maxWidth ∧ t.Reachable ∧ t.LaysOut x.bits first width := by
  rw [BitVector.layOut?] at hx
  split at hx
  · rename_i hwidth
    have hrun : BitVector.layOut first width s = (x, t) := Except.ok.inj hx
    have ht : (BitVector.layOut first width s).2.Reachable :=
      Reaches.bitVectorLayOut first width s hs
    obtain ⟨-, -, hlaid⟩ := yields_bitVectorLayOut first width hs.valid
    rw [hrun] at ht hlaid
    exact ⟨hwidth, ht, hlaid⟩
  · nomatch hx

theorem Reachable.exists_layOut? (hs : s.Reachable) (first : Nat)
    (hwidth : width ≤ BitVector.maxWidth) :
    ∃ x t, (BitVector.layOut? first width).map (·.run s) = .ok (x, t) ∧ t.Reachable ∧
      t.LaysOut x.bits first width := by
  have hlaid : (BitVector.layOut? first width).map (·.run s) =
      .ok ((BitVector.layOut first width).run s) := by
    rw [BitVector.layOut?, if_pos hwidth]
    rfl
  exact ⟨_, _, hlaid, (hs.of_layOut? hlaid).2⟩

/-- **Comparisons of bit vectors are comparisons of integers.** A vector of at most 64 bits is laid
out over any variables; in the store that this leads to, and in every later one, its comparisons
with a constant decide how the integer in these variables compares with the constant. -/
theorem Reachable.comparisons_exact (hs : s.Reachable) (first : Nat) {width : Nat}
    (hwidth : width ≤ BitVector.maxWidth) :
    ∃ x t, (BitVector.layOut? first width).map (·.run s) = .ok (x, t) ∧ t.Reachable ∧
      ∀ u, t ≤ u → u.Reachable → ∀ n lo hi : Nat,
        u.Decides (x.eq n) (fun v => Bits.value (block v first width) = n) ∧
        u.Decides (x.ge n) (fun v => n ≤ Bits.value (block v first width)) ∧
        u.Decides (x.le n) (fun v => Bits.value (block v first width) ≤ n) ∧
        u.Decides (x.between lo hi) fun v =>
          lo ≤ Bits.value (block v first width) ∧ Bits.value (block v first width) ≤ hi := by
  obtain ⟨x, t, hlaid, ht, hx⟩ := hs.exists_layOut? first hwidth
  refine ⟨x, t, hlaid, ht, fun u htu hu n lo hi => ?_⟩
  have hxu := hx.mono ht.valid htu
  exact ⟨hu.decides_eq hxu n, hu.decides_ge hxu n, hu.decides_le hxu n,
    hu.decides_between hxu lo hi⟩

/-- The widest vector, laid out from variable 3 on: its greatest value is the one whose bits are all
true, no value is greater, and no value reaches the next number. -/
theorem comparisons_exact_widest :
    Store.empty.Reachable ∧ 64 ≤ BitVector.maxWidth ∧
      ∃ x t, (BitVector.layOut? 3 64).map (·.run .empty) = .ok (x, t) ∧
        ((x.eq (2 ^ 64 - 1)).run t).2.eval ((x.eq (2 ^ 64 - 1)).run t).1 (fun _ => true) = true ∧
        (∀ v, ((x.le (2 ^ 64 - 1)).run t).2.eval ((x.le (2 ^ 64 - 1)).run t).1 v = true) ∧
        ∀ v, ((x.ge (2 ^ 64)).run t).2.eval ((x.ge (2 ^ 64)).run t).1 v = false := by
  obtain ⟨x, t, hlaid, ht, hexact⟩ := Reachable.empty.comparisons_exact 3 (Nat.le_refl 64)
  obtain ⟨heq, -, hle, -⟩ := hexact t le_rfl ht (2 ^ 64 - 1) 0 0
  obtain ⟨-, hge, -⟩ := hexact t le_rfl ht (2 ^ 64) 0 0
  have hlt : ∀ v : Valuation, Bits.value (block v 3 64) < 2 ^ 64 := fun v => by
    have h := Bits.value_lt (block v 3 64)
    rwa [length_block] at h
  refine ⟨.empty, Nat.le_refl 64, x, t, hlaid, (heq.eval_iff _).2 (by decide), fun v => ?_,
    fun v => ?_⟩
  · exact (hle.eval_iff v).2 (Nat.le_of_lt_succ (hlt v))
  · rw [← Bool.not_eq_true, hge.eval_iff v, Nat.not_le]
    exact hlt v

end Store
end Diagram
end RouteSolver
