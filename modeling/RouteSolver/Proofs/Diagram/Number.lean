/-
# Comparisons of bit vectors

`Bits.value` is the number that some bits write, the most significant one first, and `Bits.ofNat`
writes a number; each undoes the other (`Bits.value_ofNat`, `Bits.ofNat_value`). The comparisons of
a vector with a constant denote the comparisons of its value (`yields_eq`, `yields_ge`,
`yields_le`, `yields_between`), at the edges of its width as well.

The walks of `geFrom` and `leFrom` begin at the least significant bit, so they are proved about
`Bits.valueLow`, which reads the bits in that order.
-/

import RouteSolver.Diagram.BitVector
import RouteSolver.Proofs.Diagram.Connective
import Mathlib.Algebra.Ring.Nat
import Mathlib.Data.List.Induction

namespace RouteSolver
namespace Diagram

namespace Bits

/-- The number that some bits write, the most significant first. -/
def value (bs : List Bool) : Nat := bs.foldl (fun acc b => 2 * acc + b.toNat) 0

/-- The number that some bits write, the least significant first. -/
def valueLow : List Bool → Nat
  | [] => 0
  | b :: bs => 2 * valueLow bs + b.toNat

/-- The last binary digits of a number, the most significant first. -/
def ofNat : Nat → Nat → List Bool
  | 0, _ => []
  | width + 1, n => ofNat width (n / 2) ++ [n % 2 == 1]

theorem value_concat (bs : List Bool) (b : Bool) : value (bs ++ [b]) = 2 * value bs + b.toNat := by
  rw [value, List.foldl_append]
  rfl

theorem value_eq_valueLow (bs : List Bool) : value bs = valueLow bs.reverse := by
  induction bs using List.reverseRecOn with
  | nil => rfl
  | append_singleton bs b ih => rw [value_concat, ih, List.reverse_concat, valueLow]

theorem value_lt (bs : List Bool) : value bs < 2 ^ bs.length := by
  induction bs using List.reverseRecOn with
  | nil => exact Nat.one_pos
  | append_singleton bs b ih =>
    have := Bool.toNat_le b
    rw [value_concat, List.length_append, List.length_singleton, Nat.pow_succ]
    omega

@[simp]
theorem length_ofNat (width n : Nat) : (ofNat width n).length = width := by
  induction width generalizing n with
  | zero => rfl
  | succ width ih => rw [ofNat, List.length_append, ih, List.length_singleton]

theorem toNat_mod_two_beq (n : Nat) : (n % 2 == 1).toNat = n % 2 := by
  rcases Nat.mod_two_eq_zero_or_one n with h | h <;> rw [h] <;> rfl

/-- **Writing and reading** a number that fits gives it back. -/
theorem value_ofNat {width n : Nat} (h : n < 2 ^ width) : value (ofNat width n) = n := by
  induction width generalizing n with
  | zero =>
    rw [Nat.pow_zero, Nat.lt_one_iff] at h
    rw [h]
    rfl
  | succ width ih =>
    rw [Nat.pow_succ] at h
    rw [ofNat, value_concat, ih (by omega), toNat_mod_two_beq]
    omega

/-- **Reading and writing** some bits gives them back. -/
theorem ofNat_value (bs : List Bool) : ofNat bs.length (value bs) = bs := by
  induction bs using List.reverseRecOn with
  | nil => rfl
  | append_singleton bs b ih =>
    have hhalf : (2 * value bs + b.toNat) / 2 = value bs := by
      have := Bool.toNat_le b
      omega
    have hlast : ((2 * value bs + b.toNat) % 2 == 1) = b := by
      cases b
      · rw [Bool.toNat_false, Nat.add_zero, Nat.mul_mod_right]
        rfl
      · rw [Bool.toNat_true, Nat.mul_add_mod]
        rfl
    rw [value_concat, List.length_append, List.length_singleton, ofNat, hhalf, ih, hlast]

/-- The digits of a number are its bits, from the most significant one on. -/
theorem getElem?_ofNat {width j : Nat} (n : Nat) (hj : j < width) :
    (ofNat width n)[j]? = some (n.testBit (width - 1 - j)) := by
  induction width generalizing n with
  | zero => exact absurd hj (Nat.not_lt_zero _)
  | succ width ih =>
    rw [ofNat]
    rcases Nat.lt_succ_iff_lt_or_eq.1 hj with hlt | rfl
    · have hsucc : width + 1 - 1 - j = width - 1 - j + 1 := by omega
      rw [List.getElem?_append_left (by rwa [length_ofNat]), ih _ hlt, hsucc, Nat.testBit_add_one]
    · have hzero : j + 1 - 1 - j = 0 := by omega
      rw [List.getElem?_append_right (Nat.le_of_eq (length_ofNat _ _)), length_ofNat, Nat.sub_self,
        hzero, Nat.testBit_zero]
      rfl

theorem value_injective {bs cs : List Bool} (hlen : bs.length = cs.length)
    (h : value bs = value cs) : bs = cs := by
  rw [← ofNat_value bs, ← ofNat_value cs, hlen, h]

end Bits

/-- The values of some functions under one valuation. -/
abbrev values (fs : List (Valuation → Bool)) (v : Valuation) : List Bool := fs.map (· v)

theorem values_cons (f : Valuation → Bool) (fs : List (Valuation → Bool)) (v : Valuation) :
    values (f :: fs) v = f v :: values fs v := rfl

section
variable {s : Store} {rs : List Ref} {fs : List (Valuation → Bool)} {acc : Ref}
  {g : Valuation → Bool} {n : Nat}

theorem Store.DenoteAll.reverse (h : s.DenoteAll rs fs) : s.DenoteAll rs.reverse fs.reverse :=
  List.forall₂_reverse_iff.2 h

/-- The literals that a constant asks for: every bit as it is or negated. -/
theorem yields_literals (hrs : s.DenoteAll rs fs) (hn : n < 2 ^ fs.length) :
    Yields s (BitVector.literals n rs) fun qs t => ∃ gs, t.DenoteAll qs gs ∧
      ∀ v, gs.all (· v) = decide (Bits.valueLow (values fs v) = n) := by
  induction rs generalizing s fs n with
  | nil =>
    cases hrs
    rw [List.length_nil, Nat.pow_zero, Nat.lt_one_iff] at hn
    exact .pure fun _ => ⟨[], .nil, fun v => by rw [hn]; rfl⟩
  | cons r rs ih =>
    obtain ⟨f, fs, hr, hrest, rfl⟩ := List.forall₂_cons_left_iff.1 hrs
    rw [List.length_cons, Nat.pow_succ] at hn
    refine .of_valid fun hs => ?_
    have hkept : n % 2 = 1 → Yields s (pure r) fun q t =>
        t.Denotes q fun v => f v == (n % 2 == 1) := fun hodd =>
      .pure fun _ => hr.congr fun v => by rw [hodd]; cases f v <;> rfl
    have hnegated : ¬n % 2 = 1 → Yields s (neg r) fun q t =>
        t.Denotes q fun v => f v == (n % 2 == 1) := fun heven => by
      refine (yields_neg hr).mono fun q t _ _ hq => hq.congr fun v => ?_
      rw [Nat.mod_two_ne_one.1 heven]
      cases f v <;> rfl
    refine .ite_bind hkept hnegated fun q t hst ht hq => ?_
    refine (ih (Store.DenoteAll.mono hrest hs hst) (by omega)).bind fun qs u htu _ hqs => ?_
    obtain ⟨gs, hgs, hall⟩ := hqs
    refine .pure fun _ => ⟨_, .cons (hq.mono ht htu) hgs, fun v => ?_⟩
    rw [List.all_cons, hall, values_cons, Bits.valueLow, Bool.eq_iff_iff,
      Bool.and_eq_true, decide_eq_true_iff, decide_eq_true_iff, beq_iff_eq]
    have hmod := Bits.toNat_mod_two_beq n
    constructor
    · rintro ⟨hf, hlow⟩
      rw [hf, hlow, hmod]
      omega
    · intro heq
      have := Bool.toNat_le (f v)
      refine ⟨?_, by omega⟩
      rw [Bool.eq_iff_iff, ← Bool.toNat_eq_one, ← Bool.toNat_eq_one]
      omega

/-- "At least": the higher bits decide, or `acc` does where they agree with the constant. -/
theorem yields_geFrom (hacc : s.Denotes acc g) (hrs : s.DenoteAll rs fs) (hn : n < 2 ^ fs.length) :
    Yields s (BitVector.geFrom n acc rs) fun q t => t.Denotes q fun v =>
      decide (n < Bits.valueLow (values fs v)) ||
        (decide (n = Bits.valueLow (values fs v)) && g v) := by
  induction rs generalizing s fs n acc g with
  | nil =>
    cases hrs
    rw [List.length_nil, Nat.pow_zero, Nat.lt_one_iff] at hn
    subst hn
    exact .pure fun _ => hacc
  | cons r rs ih =>
    obtain ⟨f, fs, hr, hrest, rfl⟩ := List.forall₂_cons_left_iff.1 hrs
    rw [List.length_cons, Nat.pow_succ] at hn
    refine .of_valid fun hs => ?_
    have hconj : n % 2 = 1 → Yields s (conj r acc) fun q t =>
        t.Denotes q fun v => if n % 2 = 1 then f v && g v else f v || g v := fun h => by
      simp only [if_pos h]
      exact yields_conj hr hacc
    have hdisj : ¬n % 2 = 1 → Yields s (disj r acc) fun q t =>
        t.Denotes q fun v => if n % 2 = 1 then f v && g v else f v || g v := fun h => by
      simp only [if_neg h]
      exact yields_disj hr hacc
    refine .ite_bind hconj hdisj fun next t hst _ hnext => ?_
    refine (ih hnext (Store.DenoteAll.mono hrest hs hst) (by omega)).mono
      fun q u _ _ hq => hq.congr fun v => ?_
    rw [values_cons, Bits.valueLow]
    generalize Bits.valueLow (values fs v) = low
    rw [Bool.eq_iff_iff]
    rcases Nat.mod_two_eq_zero_or_one n with hpar | hpar <;> cases f v <;> cases g v <;>
      simp [hpar] <;> omega

/-- "At most": the higher bits decide, or `acc` does where they agree with the constant. -/
theorem yields_leFrom (hacc : s.Denotes acc g) (hrs : s.DenoteAll rs fs) (hn : n < 2 ^ fs.length) :
    Yields s (BitVector.leFrom n acc rs) fun q t => t.Denotes q fun v =>
      decide (Bits.valueLow (values fs v) < n) ||
        (decide (n = Bits.valueLow (values fs v)) && g v) := by
  induction rs generalizing s fs n acc g with
  | nil =>
    cases hrs
    rw [List.length_nil, Nat.pow_zero, Nat.lt_one_iff] at hn
    subst hn
    exact .pure fun _ => hacc
  | cons r rs ih =>
    obtain ⟨f, fs, hr, hrest, rfl⟩ := List.forall₂_cons_left_iff.1 hrs
    rw [List.length_cons, Nat.pow_succ] at hn
    refine .of_valid fun hs => (yields_neg hr).bind fun clear t hst ht hclear => ?_
    have hdisj : n % 2 = 1 → Yields t (disj clear acc) fun q u =>
        u.Denotes q fun v => if n % 2 = 1 then !f v || g v else !f v && g v := fun h => by
      simp only [if_pos h]
      exact yields_disj hclear (hacc.mono hs hst)
    have hconj : ¬n % 2 = 1 → Yields t (conj clear acc) fun q u =>
        u.Denotes q fun v => if n % 2 = 1 then !f v || g v else !f v && g v := fun h => by
      simp only [if_neg h]
      exact yields_conj hclear (hacc.mono hs hst)
    refine .ite_bind hdisj hconj fun next u htu _ hnext => ?_
    refine (ih hnext (Store.DenoteAll.mono hrest hs (hst.trans htu)) (by omega)).mono
      fun q x _ _ hq => hq.congr fun v => ?_
    rw [values_cons, Bits.valueLow]
    generalize Bits.valueLow (values fs v) = low
    rw [Bool.eq_iff_iff]
    rcases Nat.mod_two_eq_zero_or_one n with hpar | hpar <;> cases f v <;> cases g v <;>
      simp [hpar] <;> omega

/-! ### Comparisons -/

variable {x : BitVector}

theorem Store.DenoteAll.maxValue_eq (hx : s.DenoteAll x.bits fs) :
    x.maxValue = 2 ^ fs.length - 1 := by
  rw [BitVector.maxValue, BitVector.width, List.Forall₂.length_eq hx]
  rfl

theorem value_values_lt (fs : List (Valuation → Bool)) (v : Valuation) :
    Bits.value (values fs v) < 2 ^ fs.length := by
  have h := Bits.value_lt (values fs v)
  rwa [List.length_map] at h

theorem value_values_eq (fs : List (Valuation → Bool)) (v : Valuation) :
    Bits.valueLow (values fs.reverse v) = Bits.value (values fs v) := by
  rw [Bits.value_eq_valueLow, values, values, List.map_reverse]

/-- **Equality with a constant.** -/
theorem yields_eq (hx : s.DenoteAll x.bits fs) (n : Nat) :
    Yields s (x.eq n) fun q t => t.Denotes q fun v => decide (Bits.value (values fs v) = n) := by
  have hmax := hx.maxValue_eq
  rw [BitVector.eq]
  split
  · refine .pure fun hs => hs.denotes_bot.congr fun v => ?_
    have := value_values_lt fs v
    exact (decide_eq_false (by omega)).symm
  · refine (yields_literals hx.reverse (n := n) ?_).bind fun qs t _ _ hqs => ?_
    · rw [List.length_reverse]
      have := Nat.two_pow_pos fs.length
      omega
    · obtain ⟨gs, hgs, hall⟩ := hqs
      refine (yields_conjAll hgs).mono fun q u _ _ hq => hq.congr fun v => ?_
      rw [hall, value_values_eq]

/-- **"At least" a constant.** -/
theorem yields_ge (hx : s.DenoteAll x.bits fs) (n : Nat) :
    Yields s (x.ge n) fun q t => t.Denotes q fun v => decide (n ≤ Bits.value (values fs v)) := by
  have hmax := hx.maxValue_eq
  rw [BitVector.ge]
  split
  · refine .pure fun hs => hs.denotes_bot.congr fun v => ?_
    have := value_values_lt fs v
    exact (decide_eq_false (by omega)).symm
  · refine .of_valid fun hs => (yields_geFrom hs.denotes_top hx.reverse (n := n) ?_).mono
      fun q u _ _ hq => hq.congr fun v => ?_
    · rw [List.length_reverse]
      have := Nat.two_pow_pos fs.length
      omega
    · rw [value_values_eq, Bool.and_true, ← Bool.decide_or]
      exact decide_eq_decide.2 Nat.le_iff_lt_or_eq.symm

/-- **"At most" a constant.** -/
theorem yields_le (hx : s.DenoteAll x.bits fs) (n : Nat) :
    Yields s (x.le n) fun q t => t.Denotes q fun v => decide (Bits.value (values fs v) ≤ n) := by
  have hmax := hx.maxValue_eq
  rw [BitVector.le]
  split
  · refine .pure fun hs => hs.denotes_top.congr fun v => ?_
    have := value_values_lt fs v
    exact (decide_eq_true (by omega)).symm
  · refine .of_valid fun hs => (yields_leFrom hs.denotes_top hx.reverse (n := n) ?_).mono
      fun q u _ _ hq => hq.congr fun v => ?_
    · rw [List.length_reverse]
      omega
    · rw [value_values_eq, Bool.and_true, ← Bool.decide_or]
      exact decide_eq_decide.2 (by rw [Nat.le_iff_lt_or_eq, eq_comm (a := n)])

/-- **Between two constants.** -/
theorem yields_between (hx : s.DenoteAll x.bits fs) (lo hi : Nat) :
    Yields s (x.between lo hi) fun q t => t.Denotes q fun v =>
      decide (lo ≤ Bits.value (values fs v) ∧ Bits.value (values fs v) ≤ hi) :=
  .of_valid fun hs => (yields_ge hx lo).bind fun _ _ hst ht hlower =>
    (yields_le (Store.DenoteAll.mono hx hs hst) hi).bind fun _ _ htu _ hupper =>
      (yields_conj (hlower.mono ht htu) hupper).mono fun _ _ _ _ hq =>
        hq.congr fun _ => (Bool.decide_and _ _).symm

end
end Diagram
end RouteSolver
