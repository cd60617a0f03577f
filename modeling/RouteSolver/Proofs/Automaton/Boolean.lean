/-
# Boolean operations are exact

Side by side, two well-formed automata decide every Boolean combination of their languages
(`Valid.acceptsBytes_inter`, `Valid.acceptsBytes_union`, `Valid.acceptsBytes_minus`), and inclusion
with it (`Valid.subsetOf_iff`). The automaton of one byte string is laid out as a table, with a
state for each beginning of the string (`run_ofBytes`), and it accepts that string alone
(`acceptsBytes_ofBytes`).
-/

import RouteSolver.Automaton.Boolean
import RouteSolver.Proofs.Automaton.Minimal

namespace RouteSolver
namespace Automaton

variable {a b : Automaton}

/-- A pair of states is told by its number. -/
theorem pair_eq_of_number_eq (hb : b.Complete) {p q : Nat × Nat} (hp : p.2 < b.size)
    (hq : q.2 < b.size) (heq : p.1 * b.size + p.2 = q.1 * b.size + q.2) : p = q := by
  have hmod := congrArg (· % b.size) heq
  simp only [Nat.mul_add_mod', Nat.mod_eq_of_lt hp, Nat.mod_eq_of_lt hq] at hmod
  rw [hmod, Nat.add_right_cancel_iff] at heq
  exact Prod.ext (Nat.eq_of_mul_eq_mul_right hb.size_pos heq) hmod

theorem explorable_sideBySide (ha : a.Valid) (hb : b.Valid) (accept : Bool → Bool → Bool) :
    Explorable (a.alphabet.meet b.alphabet) (fun p : Nat × Nat => p.1 * b.size + p.2)
      (fun p byte => (a.step p.1 byte, b.step p.2 byte))
      (fun p => accept (a.isAccepting p.1) (b.isAccepting p.2)) (a.size * b.size) (0, 0)
      (fun p => p.1 < a.size ∧ p.2 < b.size) := by
  refine {
    valid_alphabet := Alphabet.valid_ofKey _
    inv_start := ⟨ha.size_pos, hb.size_pos⟩
    inv_next := fun p byte hp => ⟨ha.step_lt hp.1 byte, hb.step_lt hp.2 byte⟩
    key_next := fun p q byte hp hq heq => by rw [pair_eq_of_number_eq hb.toComplete hp.2 hq.2 heq]
    key_letter := fun p x y hp hletter => ?_
    accept_eq := fun p q hp hq heq => by rw [pair_eq_of_number_eq hb.toComplete hp.2 hq.2 heq]
    bounded := ⟨id, fun p hp => ?_, fun _ _ _ _ heq => heq⟩ }
  · obtain ⟨hx, hy⟩ := (Alphabet.letter_meet_eq_iff hb.alphabet x y).1 hletter
    rw [a.step_eq_of_letter_eq _ hx, b.step_eq_of_letter_eq _ hy]
  · calc p.1 * b.size + p.2 < p.1 * b.size + b.size := Nat.add_lt_add_left hp.2 _
      _ = (p.1 + 1) * b.size := (Nat.succ_mul _ _).symm
      _ ≤ a.size * b.size := Nat.mul_le_mul_right _ hp.1

theorem foldl_sideBySide (w : List UInt8) :
    w.foldl (fun (p : Nat × Nat) byte => (a.step p.1 byte, b.step p.2 byte)) (0, 0) =
      (a.run w, b.run w) := by
  induction w using List.reverseRecOn with
  | nil => rfl
  | append_singleton w byte ih => rw [List.foldl_append, ih, run_concat, run_concat]; rfl

theorem Valid.sideBySide (ha : a.Valid) (hb : b.Valid) (accept : Bool → Bool → Bool) :
    (a.sideBySide b accept).Valid := (explorable_sideBySide ha hb accept).valid_explore

/-- **Side by side** two automata decide a combination of their languages. -/
theorem Valid.acceptsBytes_sideBySide (ha : a.Valid) (hb : b.Valid) (accept : Bool → Bool → Bool)
    (w : List UInt8) :
    (a.sideBySide b accept).acceptsBytes w = accept (a.acceptsBytes w) (b.acceptsBytes w) := by
  rw [Automaton.sideBySide, (explorable_sideBySide ha hb accept).acceptsBytes_explore,
    foldl_sideBySide]
  rfl

theorem Valid.inter (ha : a.Valid) (hb : b.Valid) : (a.inter b).Valid :=
  (ha.sideBySide hb _).minimize

theorem Valid.acceptsBytes_inter (ha : a.Valid) (hb : b.Valid) (w : List UInt8) :
    (a.inter b).acceptsBytes w = (a.acceptsBytes w && b.acceptsBytes w) := by
  rw [Automaton.inter, (ha.sideBySide hb _).acceptsBytes_minimize, ha.acceptsBytes_sideBySide hb]

theorem Valid.union (ha : a.Valid) (hb : b.Valid) : (a.union b).Valid :=
  (ha.sideBySide hb _).minimize

theorem Valid.acceptsBytes_union (ha : a.Valid) (hb : b.Valid) (w : List UInt8) :
    (a.union b).acceptsBytes w = (a.acceptsBytes w || b.acceptsBytes w) := by
  rw [Automaton.union, (ha.sideBySide hb _).acceptsBytes_minimize, ha.acceptsBytes_sideBySide hb]

theorem Valid.minus (ha : a.Valid) (hb : b.Valid) : (a.minus b).Valid :=
  (ha.sideBySide hb _).minimize

theorem Valid.acceptsBytes_minus (ha : a.Valid) (hb : b.Valid) (w : List UInt8) :
    (a.minus b).acceptsBytes w = (a.acceptsBytes w && !b.acceptsBytes w) := by
  rw [Automaton.minus, (ha.sideBySide hb _).acceptsBytes_minimize, ha.acceptsBytes_sideBySide hb]

/-- **Inclusion is exact.** -/
theorem Valid.subsetOf_iff (ha : a.Valid) (hb : b.Valid) :
    a.subsetOf b = true ↔ ∀ w, a.acceptsBytes w = true → b.acceptsBytes w = true := by
  rw [subsetOf, (ha.sideBySide hb _).isEmpty_iff]
  refine forall_congr' fun w => ?_
  rw [ha.acceptsBytes_sideBySide hb]
  cases a.acceptsBytes w <;> cases b.acceptsBytes w <;> decide

/-! ### Tables of functions -/

section
variable {alphabet : Alphabet} {accepting : Array Bool} {next : Nat → UInt8 → Nat}
  (hvalid : alphabet.Valid)
include hvalid

theorem step_ofTable {q : Nat} (hq : q < accepting.size)
    (hnext : ∀ x y, alphabet.letter x = alphabet.letter y → next q x = next q y) (x : UInt8) :
    (ofTable alphabet accepting next).step q x = next q x := by
  obtain ⟨r, hr, -⟩ := hvalid.exists_representative x
  rw [← hnext r x (hvalid.letter_representative _ r hr), step, ofTable]
  simp only [Array.getD_eq_getD_getElem?, Array.getElem?_map, Array.getElem?_range, if_pos hq, hr,
    Option.map_some, Option.getD_some]

/-- **The table of a function** is complete if its values are states. -/
theorem complete_ofTable (hpos : 0 < accepting.size)
    (hlt : ∀ q x, q < accepting.size → next q x < accepting.size) :
    (ofTable alphabet accepting next).Complete := by
  have hrow : ∀ {q : Nat} {row : Array Nat}, (ofTable alphabet accepting next).rows[q]? = some row →
      q < accepting.size ∧ row = alphabet.representatives.map (next q) := by
    intro q row hrow
    rw [ofTable, Array.getElem?_map, Array.getElem?_range, Option.map_eq_some_iff] at hrow
    obtain ⟨q', hq', rfl⟩ := hrow
    split at hq'
    · rename_i hq
      exact ⟨hq, by rw [Option.some.inj hq']⟩
    · nomatch hq'
  refine {
    alphabet := hvalid
    size_pos := hpos
    size_rows := Array.size_map.trans Array.size_range
    size_row := fun q row h => ?_
    target_lt := fun q row h t ht => ?_ }
  · rw [(hrow h).2, Array.size_map]
    rfl
  · obtain ⟨hq, rfl⟩ := hrow h
    rw [Array.toList_map, List.mem_map] at ht
    obtain ⟨x, -, rfl⟩ := ht
    exact hlt q x hq

end

/-! ### One byte string -/

section
variable (w : List UInt8)

theorem size_ofBytes : (ofBytes w).size = w.length + 2 := by
  rw [size, ofBytes, ofTable, Array.size_map, Array.size_range]

theorem isAccepting_ofBytes {q : Nat} (hq : q < w.length + 2) :
    (ofBytes w).isAccepting q = (q == w.length) := by
  rw [isAccepting, ofBytes, ofTable, Array.getD_eq_getD_getElem?, Array.getElem?_map,
    Array.getElem?_range, if_pos hq]
  rfl

/-- **The next byte** of the string leads on, and every other one to the last state. -/
theorem step_ofBytes {q : Nat} (hq : q < w.length + 2) (b : UInt8) :
    (ofBytes w).step q b = if w[q]? = some b then q + 1 else w.length + 1 := by
  have hq : q < (ofBytes w).size := (size_ofBytes w).symm ▸ hq
  refine step_ofTable (Alphabet.valid_ofKey _) hq (fun x y hxy => ?_) b
  have hkey := (Alphabet.letter_ofKey_eq_iff _ x y).1 hxy
  -- bytes of one letter are equal, or neither of them occurs in the string
  have hiff : w[q]? = some x ↔ w[q]? = some y := by
    by_cases hx : x ∈ w <;> by_cases hy : y ∈ w
    · rw [if_pos hx, if_pos hy, Nat.add_right_cancel_iff, UInt8.toNat_inj] at hkey
      rw [hkey]
    · rw [if_pos hx, if_neg hy] at hkey
      exact absurd hkey (Nat.succ_ne_zero _)
    · rw [if_neg hx, if_pos hy] at hkey
      exact absurd hkey.symm (Nat.succ_ne_zero _)
    · exact iff_of_false (fun h => hx (List.mem_of_getElem? h))
        fun h => hy (List.mem_of_getElem? h)
  exact if_congr hiff rfl rfl

theorem complete_ofBytes : (ofBytes w).Complete := by
  have hsize : ((Array.range (w.length + 2)).map (· == w.length)).size = w.length + 2 :=
    size_ofBytes w
  refine complete_ofTable (Alphabet.valid_ofKey _) (Nat.lt_of_lt_of_eq (Nat.succ_pos _) hsize.symm)
    fun q x _ => ?_
  rw [hsize]
  split
  · rename_i hx
    have := (List.getElem?_eq_some_iff.1 hx).1
    omega
  · exact Nat.lt_succ_self _

theorem concat_prefix_iff {v w : List UInt8} (b : UInt8) :
    v ++ [b] <+: w ↔ v <+: w ∧ w[v.length]? = some b := by
  constructor
  · rintro ⟨t, rfl⟩
    exact ⟨⟨b :: t, by simp⟩, by simp⟩
  · rintro ⟨⟨t, rfl⟩, hb⟩
    rw [List.getElem?_append_right (Nat.le_refl _), Nat.sub_self] at hb
    obtain ⟨u, rfl⟩ := List.head?_eq_some_iff.1 (List.head?_eq_getElem?.trans hb)
    exact ⟨u, by simp⟩

/-- **A run** counts the bytes as long as they begin the string. -/
theorem run_ofBytes (v : List UInt8) :
    (ofBytes w).run v = if v <+: w then v.length else w.length + 1 := by
  induction v using List.reverseRecOn with
  | nil => rw [if_pos List.nil_prefix]; rfl
  | append_singleton v b ih =>
    rw [run_concat, ih]
    by_cases hv : v <+: w
    · have hlen := hv.length_le
      rw [if_pos hv, step_ofBytes w (by omega), List.length_append, List.length_singleton]
      exact if_congr ((concat_prefix_iff b).trans (and_iff_right hv)).symm rfl rfl
    · have hnone : w[w.length + 1]? = none := List.getElem?_eq_none (Nat.le_succ _)
      rw [if_neg hv, step_ofBytes w (Nat.lt_succ_self _), hnone, if_neg nofun,
        if_neg fun h => hv ((concat_prefix_iff b).1 h).1]

theorem valid_ofBytes : (ofBytes w).Valid := by
  refine ⟨complete_ofBytes w, fun q hq => ?_⟩
  rw [size_ofBytes] at hq
  rcases Nat.lt_or_ge w.length q with hlast | hread
  · refine ⟨w ++ [0], ?_⟩
    rw [run_ofBytes, if_neg fun h => absurd h.length_le (by simp)]
    omega
  · refine ⟨w.take q, ?_⟩
    rw [run_ofBytes, if_pos (List.take_prefix q w), List.length_take_of_le hread]

/-- **The automaton of a byte string** accepts that string alone. -/
theorem acceptsBytes_ofBytes (v : List UInt8) : (ofBytes w).acceptsBytes v = true ↔ v = w := by
  have hlt := (complete_ofBytes w).run_lt v
  rw [size_ofBytes] at hlt
  rw [acceptsBytes, isAccepting_ofBytes w hlt, beq_iff_eq, run_ofBytes]
  constructor
  · intro h
    split at h
    · rename_i hv
      exact hv.eq_of_length h
    · omega
  · rintro rfl
    exact if_pos (List.prefix_refl v)

end

end Automaton
end RouteSolver
