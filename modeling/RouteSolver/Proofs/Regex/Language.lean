/-
# Languages of expressions without assertions

An expression that makes no assertion matches the same strings wherever it stands (`Expr.Means`).
Its language is put together as the expression is: one rule for each way of building expressions.
-/

import RouteSolver.Regex.Expr

namespace RouteSolver

namespace ByteSet

theorem contains_single (b c : UInt8) : (single b).contains c = decide (c = b) := by
  have h : (2 ^ b.toNat).testBit c.toNat = decide (b.toNat = c.toNat) := Nat.testBit_two_pow
  exact h.trans (decide_eq_decide.2 (by rw [UInt8.toNat_inj, eq_comm]))

theorem testBit_range {lo hi : UInt8} (h : lo ≤ hi) (n : Nat) :
    (range lo hi).mask.testBit n = decide (lo.toNat ≤ n ∧ n ≤ hi.toNat) := by
  have hmask : ((2 ^ (hi.toNat - lo.toNat + 1) - 1) <<< lo.toNat).testBit n =
      (decide (n ≥ lo.toNat) && decide (n - lo.toNat < hi.toNat - lo.toNat + 1)) := by
    rw [Nat.testBit_shiftLeft, Nat.testBit_two_pow_sub_one]
  rw [range, if_pos h]
  refine hmask.trans ?_
  rw [Bool.eq_iff_iff]
  simp only [Bool.and_eq_true, decide_eq_true_iff, UInt8.le_iff_toNat_le] at h ⊢
  omega

theorem contains_range (lo hi b : UInt8) :
    (range lo hi).contains b = (decide (lo ≤ b) && decide (b ≤ hi)) := by
  by_cases h : lo ≤ hi
  · rw [contains, testBit_range h, Bool.decide_and]
    rfl
  · rw [range, if_neg h, contains_empty, Bool.eq_iff_iff]
    simp only [Bool.and_eq_true, decide_eq_true_iff, UInt8.le_iff_toNat_le] at h ⊢
    exact iff_of_false Bool.false_ne_true fun hb => h (Nat.le_trans hb.1 hb.2)

theorem contains_ofRanges_singleton (lo hi b : UInt8) :
    (ofRanges [(lo, hi)]).contains b = (decide (lo ≤ b) && decide (b ≤ hi)) := by
  rw [ofRanges, List.foldl_cons, List.foldl_nil, contains_union, contains_empty, Bool.false_or,
    contains_range]

/-- A folded set has both cases of its letters. -/
theorem contains_foldCase (s : ByteSet) (b : UInt8) : s.foldCase.contains b =
    (s.contains b || (decide (97 ≤ b.toNat ∧ b.toNat ≤ 122) && s.contains (b - 32)) ||
      (decide (65 ≤ b.toNat ∧ b.toNat ≤ 90) && s.contains (b + 32))) := by
  have hsmall : ((s.inter capitals).mask <<< 32).testBit b.toNat =
      (decide (97 ≤ b.toNat ∧ b.toNat ≤ 122) && s.contains (b - 32)) := by
    have hiff : (65 ≤ b.toNat - 32 ∧ b.toNat - 32 ≤ 90) ↔ 97 ≤ b.toNat ∧ b.toNat ≤ 122 := by omega
    have hbit : capitals.mask.testBit (b.toNat - 32) = decide (97 ≤ b.toNat ∧ b.toNat ≤ 122) :=
      (testBit_range (by decide) _).trans (decide_eq_decide.2 hiff)
    rw [Nat.testBit_shiftLeft, inter, Nat.testBit_and, hbit]
    by_cases hb : 97 ≤ b.toNat ∧ b.toNat ≤ 122
    · have hge : b.toNat ≥ 32 := Nat.le_trans (by decide) hb.1
      rw [contains, UInt8.toNat_sub_of_le b 32 (UInt8.le_iff_toNat_le.2 hge), decide_eq_true hb,
        decide_eq_true hge, Bool.and_true]
      rfl
    · rw [decide_eq_false hb, Bool.and_false, Bool.and_false, Bool.false_and]
  have hcapital : ((s.inter smalls).mask >>> 32).testBit b.toNat =
      (decide (65 ≤ b.toNat ∧ b.toNat ≤ 90) && s.contains (b + 32)) := by
    have hiff : (97 ≤ 32 + b.toNat ∧ 32 + b.toNat ≤ 122) ↔ 65 ≤ b.toNat ∧ b.toNat ≤ 90 := by omega
    have hbit : smalls.mask.testBit (32 + b.toNat) = decide (65 ≤ b.toNat ∧ b.toNat ≤ 90) :=
      (testBit_range (by decide) _).trans (decide_eq_decide.2 hiff)
    rw [Nat.testBit_shiftRight, inter, Nat.testBit_and, hbit]
    by_cases hb : 65 ≤ b.toNat ∧ b.toNat ≤ 90
    · have hadd : (b + 32).toNat = 32 + b.toNat := by
        have hlt : b.toNat + 32 < 2 ^ 8 := by omega
        rw [UInt8.toNat_add]
        exact (Nat.mod_eq_of_lt hlt).trans (Nat.add_comm ..)
      rw [contains, hadd, Bool.and_comm]
    · rw [decide_eq_false hb, Bool.and_false, Bool.false_and]
  rw [foldCase, contains_union, contains_union, ← hsmall, ← hcapital]
  rfl

end ByteSet

namespace Regex
namespace Expr

/-- Wherever it stands, the expression matches exactly the strings of the language. -/
def Means (e : Expr) (l : List UInt8 → Prop) : Prop :=
  ∀ before w after, e.Matches before w after ↔ l w

/-! ### Grouping -/

theorem lastOr_append (before : Option UInt8) (u v : List UInt8) :
    lastOr before (u ++ v) = lastOr (lastOr before u) v := by
  rw [lastOr, lastOr, lastOr, List.getLast?_append, Option.or_assoc]

theorem headOr_append (after : Option UInt8) (u v : List UInt8) :
    headOr after (u ++ v) = headOr (headOr after v) u := by
  rw [headOr, headOr, headOr, List.head?_append, Option.or_assoc]

/-- How a sequence is grouped makes no difference. -/
theorem matches_cat_assoc (a b c : Expr) (before : Option UInt8) (w : List UInt8)
    (after : Option UInt8) :
    (cat (cat a b) c).Matches before w after ↔ (cat a (cat b c)).Matches before w after := by
  constructor
  · rintro ⟨_, z, rfl, ⟨x, y, rfl, ha, hb⟩, hc⟩
    rw [← headOr_append] at ha
    rw [lastOr_append] at hc
    exact ⟨x, y ++ z, List.append_assoc .., ha, y, z, rfl, hb, hc⟩
  · rintro ⟨x, _, rfl, ha, y, z, rfl, hb, hc⟩
    rw [headOr_append] at ha
    rw [← lastOr_append] at hc
    exact ⟨x ++ y, z, (List.append_assoc ..).symm, ⟨x, y, rfl, ha, hb⟩, hc⟩

/-! ### Numbers of times -/

/-- A string is made of as many strings of a language as are allowed. -/
def Repeats (l : List UInt8 → Prop) (allowed : Nat → Prop) (w : List UInt8) : Prop :=
  ∃ ws : List (List UInt8), w = ws.flatten ∧ allowed ws.length ∧ ∀ u ∈ ws, l u

section
variable {l : List UInt8 → Prop} {allowed : Nat → Prop} {w : List UInt8}

/-- A first time and then the others. -/
theorem repeats_succ_iff : Repeats l (fun n => 0 < n ∧ allowed (n - 1)) w ↔
    ∃ u v, w = u ++ v ∧ l u ∧ Repeats l allowed v := by
  constructor
  · rintro ⟨ws, rfl, ⟨hpos, hallowed⟩, hws⟩
    cases ws with
    | nil => exact absurd hpos (Nat.lt_irrefl 0)
    | cons u ws =>
      obtain ⟨hu, hws⟩ := List.forall_mem_cons.1 hws
      exact ⟨u, ws.flatten, List.flatten_cons, hu, ws, rfl, hallowed, hws⟩
  · rintro ⟨u, _, rfl, hu, ws, rfl, hallowed, hws⟩
    exact ⟨u :: ws, List.flatten_cons.symm, ⟨Nat.succ_pos _, hallowed⟩,
      List.forall_mem_cons.2 ⟨hu, hws⟩⟩

theorem repeats_zero_iff : Repeats l (· = 0) w ↔ w = [] := by
  constructor
  · rintro ⟨ws, rfl, hws, -⟩
    rw [List.length_eq_zero_iff.1 hws, List.flatten_nil]
  · rintro rfl
    exact ⟨[], rfl, rfl, fun u hu => absurd hu List.not_mem_nil⟩

theorem repeats_congr {allowed' : Nat → Prop} (h : ∀ n, allowed n ↔ allowed' n) :
    Repeats l allowed w ↔ Repeats l allowed' w :=
  exists_congr fun _ => and_congr_right fun _ => and_congr_left fun _ => h _

/-- Some times and then others. -/
theorem repeats_add_iff {k : Nat} : Repeats l (fun n => k ≤ n ∧ allowed (n - k)) w ↔
    ∃ u v, w = u ++ v ∧ Repeats l (· = k) u ∧ Repeats l allowed v := by
  constructor
  · rintro ⟨ws, rfl, ⟨hk, hallowed⟩, hws⟩
    refine ⟨(ws.take k).flatten, (ws.drop k).flatten, ?_,
      ⟨_, rfl, List.length_take_of_le hk, fun u hu => hws u (List.mem_of_mem_take hu)⟩,
      ⟨_, rfl, List.length_drop ▸ hallowed, fun u hu => hws u (List.mem_of_mem_drop hu)⟩⟩
    rw [← List.flatten_append, List.take_append_drop]
  · rintro ⟨_, _, rfl, ⟨us, rfl, rfl, hus⟩, vs, rfl, hallowed, hvs⟩
    refine ⟨us ++ vs, List.flatten_append.symm, ?_, fun u hu => ?_⟩
    · rw [List.length_append]
      exact ⟨Nat.le_add_right _ _, (Nat.add_sub_cancel_left us.length vs.length).symm ▸ hallowed⟩
    · exact (List.mem_append.1 hu).elim (hus u) (hvs u)

/-- Single bytes as many times as are allowed. -/
theorem repeats_byte_iff {s : ByteSet} :
    Repeats (fun u => ∃ b, s.contains b = true ∧ u = [b]) allowed w ↔
      allowed w.length ∧ ∀ b ∈ w, s.contains b = true := by
  constructor
  · rintro ⟨ws, rfl, hallowed, hws⟩
    have hlen : ws.flatten.length = ws.length := by
      rw [List.length_flatten, List.map_congr_left (g := fun _ => 1) fun u hu => ?_,
        List.map_const', List.sum_replicate_nat, Nat.mul_one]
      obtain ⟨b, -, rfl⟩ := hws u hu
      rfl
    refine ⟨hlen.symm ▸ hallowed, fun b hb => ?_⟩
    obtain ⟨u, hu, hbu⟩ := List.mem_flatten.1 hb
    obtain ⟨c, hc, rfl⟩ := hws u hu
    exact List.mem_singleton.1 hbu ▸ hc
  · rintro ⟨hallowed, hw⟩
    refine ⟨w.map fun b => [b], (List.flatMap_singleton' w).symm, ?_, fun u hu => ?_⟩
    · rwa [List.length_map]
    · obtain ⟨b, hb, rfl⟩ := List.mem_map.1 hu
      exact ⟨b, hw b hb, rfl⟩

end

namespace Means

variable {a b e : Expr} {l m : List UInt8 → Prop} {s : ByteSet}

theorem language_iff (h : e.Means l) (w : List UInt8) : e.Language w ↔ l w := h none w none

theorem congr (h : e.Means l) (hlm : ∀ w, l w ↔ m w) : e.Means m := fun before w after =>
  (h before w after).trans (hlm w)

theorem byte (s : ByteSet) : (Expr.byte s).Means fun w => ∃ b, s.contains b = true ∧ w = [b] :=
  fun _ _ _ => Iff.rfl

theorem empty : Expr.empty.Means (· = []) := fun _ _ _ => Iff.rfl

theorem cat (ha : a.Means l) (hb : b.Means m) :
    (Expr.cat a b).Means fun w => ∃ u v, w = u ++ v ∧ l u ∧ m v := fun _ _ _ =>
  exists_congr fun _ => exists_congr fun _ => and_congr_right fun _ =>
    and_congr (ha _ _ _) (hb _ _ _)

theorem alt (ha : a.Means l) (hb : b.Means m) : (Expr.alt a b).Means fun w => l w ∨ m w :=
  fun _ _ _ => or_congr (ha _ _ _) (hb _ _ _)

/-- **Repetition** matches the strings that are made of matches. -/
theorem star (ha : a.Means l) :
    (Expr.star a).Means fun w => ∃ ws : List (List UInt8), w = ws.flatten ∧ ∀ u ∈ ws, l u := by
  intro before w after
  constructor
  · intro h
    induction h with
    | nil => exact ⟨[], rfl, fun u hu => absurd hu List.not_mem_nil⟩
    | cons before after u v first _ ih =>
      obtain ⟨ws, rfl, hws⟩ := ih
      exact ⟨u :: ws, List.flatten_cons.symm, List.forall_mem_cons.2 ⟨(ha _ _ _).1 first, hws⟩⟩
  · rintro ⟨ws, rfl, hws⟩
    induction ws generalizing before with
    | nil => exact .nil _ _
    | cons u ws ih =>
      obtain ⟨hu, hws⟩ := List.forall_mem_cons.1 hws
      exact .cons _ _ _ _ ((ha _ _ _).2 hu) (ih _ hws)

theorem star_repeats (ha : a.Means l) : (Expr.star a).Means (Repeats l fun _ => True) :=
  ha.star.congr fun _ => exists_congr fun _ => and_congr_right fun _ =>
    (and_iff_right trivial).symm

/-- Repeating single bytes. -/
theorem star_byte (s : ByteSet) :
    (Expr.star (.byte s)).Means fun w => ∀ b ∈ w, s.contains b = true :=
  (byte s).star_repeats.congr fun _ => repeats_byte_iff.trans (and_iff_right trivial)

theorem optional (ha : a.Means l) : a.optional.Means fun w => w = [] ∨ l w := empty.alt ha

theorem seq_cons {es : List Expr} (ha : a.Means l) (hes : (Expr.seq es).Means m) :
    (Expr.seq (a :: es)).Means fun w => ∃ u v, w = u ++ v ∧ l u ∧ m v := by
  cases es with
  | nil =>
    refine ha.congr fun w =>
      ⟨fun h => ⟨w, [], (List.append_nil w).symm, h, (hes none [] none).1 rfl⟩, ?_⟩
    rintro ⟨u, v, rfl, hu, hv⟩
    obtain rfl : v = [] := (hes none v none).2 hv
    rwa [List.append_nil]
  | cons e es => exact ha.cat hes

theorem never : Expr.never.Means fun _ => False := fun _ _ _ =>
  ⟨fun ⟨b, hb, _⟩ => Bool.noConfusion ((ByteSet.contains_empty b).symm.trans hb), False.elim⟩

theorem oneOf_cons {es : List Expr} (ha : a.Means l) (hes : (Expr.oneOf es).Means m) :
    (Expr.oneOf (a :: es)).Means fun w => l w ∨ m w := by
  cases es with
  | nil =>
    refine ha.congr fun w => ⟨.inl, ?_⟩
    rintro (hw | hw)
    · exact hw
    · exact ((never none w none).1 ((hes none w none).2 hw)).elim
  | cons e es => exact ha.alt hes

/-- Some bytes in order. -/
theorem literal (bs : List UInt8) : (Expr.literal bs).Means (· = bs) := by
  induction bs with
  | nil => exact empty
  | cons b bs ih =>
    refine (seq_cons (byte (.single b)) ih).congr fun w => ?_
    constructor
    · rintro ⟨u, v, rfl, ⟨c, hc, rfl⟩, rfl⟩
      rw [ByteSet.contains_single, decide_eq_true_iff] at hc
      rw [hc]
      rfl
    · rintro rfl
      exact ⟨[b], bs, rfl, ⟨b, by rw [ByteSet.contains_single, decide_eq_true_iff], rfl⟩, rfl⟩

/-! ### Counted repetitions -/

theorem atMost (ha : a.Means l) (n : Nat) : (a.atMost n).Means (Repeats l (· ≤ n)) := by
  induction n with
  | zero =>
    exact empty.congr fun w => repeats_zero_iff.symm.trans (repeats_congr fun n => by omega)
  | succ n ih =>
    -- with one time left nothing may follow, which the rule for `n` says as well
    have hmore : (a.atMost (n + 1)).Means fun w => w = [] ∨
        ∃ u v, w = u ++ v ∧ l u ∧ Repeats l (· ≤ n) v := by
      cases n with
      | zero =>
        refine (optional ha).congr fun w => or_congr_right ?_
        constructor
        · exact fun hw => ⟨w, [], (List.append_nil w).symm, hw, (ih none [] none).1 rfl⟩
        · rintro ⟨u, v, rfl, hu, hv⟩
          obtain rfl : v = [] := (ih none v none).2 hv
          rwa [List.append_nil]
      | succ n => exact optional (cat ha ih)
    refine hmore.congr fun w => ?_
    rw [← repeats_zero_iff (l := l), ← repeats_succ_iff]
    constructor
    · rintro (⟨ws, rfl, hlen, hws⟩ | ⟨ws, rfl, hlen, hws⟩)
      · exact ⟨ws, rfl, by omega, hws⟩
      · exact ⟨ws, rfl, by omega, hws⟩
    · rintro ⟨ws, rfl, hlen, hws⟩
      rcases Nat.eq_zero_or_pos ws.length with hzero | hpos
      · exact .inl ⟨ws, rfl, hzero, hws⟩
      · exact .inr ⟨ws, rfl, ⟨hpos, by omega⟩, hws⟩

theorem exactly (ha : a.Means l) (n : Nat) : (a.exactly n).Means (Repeats l (· = n)) := by
  induction n with
  | zero => exact empty.congr fun w => repeats_zero_iff.symm
  | succ n ih =>
    exact (ha.seq_cons ih).congr fun w =>
      repeats_succ_iff.symm.trans (repeats_congr fun n => by omega)

/-- **A counted repetition** matches the strings that are made of as many matches. -/
theorem repeated (ha : a.Means l) {min : Nat} {max : Option Nat} (h : ∀ n ∈ max, min ≤ n) :
    (a.repeated min max).Means (Repeats l fun n => min ≤ n ∧ ∀ m ∈ max, n ≤ m) := by
  cases min with
  | zero =>
    cases max with
    | none => exact ha.star_repeats.congr fun w => repeats_congr fun n => by simp
    | some k => exact (ha.atMost k).congr fun w => repeats_congr fun n => by simp
  | succ m =>
    cases max with
    | none =>
      exact (cat (ha.exactly (m + 1)) ha.star_repeats).congr fun w =>
        repeats_add_iff.symm.trans (repeats_congr fun n => by simp)
    | some k =>
      have hle : m + 1 ≤ k := h k rfl
      rw [Expr.repeated]
      split
      · rename_i heq
        refine (ha.exactly k).congr fun w => repeats_congr fun n => ?_
        simp only [Option.mem_some_iff, forall_eq']
        omega
      · refine (cat (ha.exactly (m + 1)) (ha.atMost (k - (m + 1)))).congr fun w =>
          repeats_add_iff.symm.trans (repeats_congr fun n => ?_)
        simp only [Option.mem_some_iff, forall_eq']
        omega

/-- Single bytes up to a number of times. -/
theorem atMost_byte (s : ByteSet) (n : Nat) :
    ((Expr.byte s).atMost n).Means fun w => w.length ≤ n ∧ ∀ b ∈ w, s.contains b = true :=
  (atMost (byte s) n).congr fun _ => repeats_byte_iff

end Means

/-! ### Sequences -/

/-- With anything after them, the expressions match the strings of the language first. -/
def SeqMeans (es : List Expr) (l : List UInt8 → Prop) : Prop :=
  ∀ fs m, (Expr.seq fs).Means m →
    (Expr.seq (es ++ fs)).Means fun w => ∃ u v, w = u ++ v ∧ l u ∧ m v

namespace SeqMeans

variable {es fs : List Expr} {e : Expr} {l m : List UInt8 → Prop}

theorem means (h : SeqMeans es l) : (Expr.seq es).Means l := by
  have hnil : (Expr.seq []).Means (· = []) := .empty
  rw [← List.append_nil es]
  refine (h [] _ hnil).congr fun w => ⟨?_, fun hw => ⟨w, [], (List.append_nil w).symm, hw, rfl⟩⟩
  rintro ⟨u, _, rfl, hu, rfl⟩
  rwa [List.append_nil]

theorem congr (h : SeqMeans es l) (hlm : ∀ w, l w ↔ m w) : SeqMeans es m := fun fs k hfs =>
  (h fs k hfs).congr fun _ => exists_congr fun _ => exists_congr fun _ =>
    and_congr_right fun _ => and_congr_left fun _ => hlm _

theorem nil : SeqMeans [] (· = []) := fun fs m hfs => hfs.congr fun w =>
  ⟨fun hw => ⟨[], w, rfl, rfl, hw⟩, by rintro ⟨_, v, rfl, rfl, hv⟩; exact hv⟩

theorem single (h : e.Means l) : SeqMeans [e] l := fun _ _ hfs => h.seq_cons hfs

theorem append (hes : SeqMeans es l) (hfs : SeqMeans fs m) :
    SeqMeans (es ++ fs) fun w => ∃ u v, w = u ++ v ∧ l u ∧ m v := by
  intro gs k hgs
  rw [List.append_assoc]
  refine (hes _ _ (hfs gs k hgs)).congr fun w => ?_
  constructor
  · rintro ⟨u, _, rfl, hu, v, x, rfl, hv, hx⟩
    exact ⟨u ++ v, x, (List.append_assoc u v x).symm, ⟨u, v, rfl, hu, hv⟩, hx⟩
  · rintro ⟨_, x, rfl, ⟨u, v, rfl, hu, hv⟩, hx⟩
    exact ⟨u, v ++ x, List.append_assoc u v x, hu, v, x, rfl, hv, hx⟩

end SeqMeans
end Expr
end Regex
end RouteSolver
