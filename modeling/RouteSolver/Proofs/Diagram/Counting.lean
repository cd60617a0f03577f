/-
# Counting and choices

`atMostOne` and `exactlyOne` count the diagrams of a list that hold (`yields_atMostOne`,
`yields_exactlyOne`). A `Choice` whose alternatives are different is equal to one of them exactly
when its variables hold as `oneHot` says (`yields_choiceEq`).

The walk of `atMostOneFrom` carries two diagrams: that none has held, and that at most one has.
-/

import RouteSolver.Diagram.Choice
import RouteSolver.Proofs.Diagram.Number
import Mathlib.Data.List.Nodup

namespace RouteSolver
namespace Diagram

section
variable {s : Store} {rs : List Ref} {fs : List (Valuation → Bool)} {noneYet within : Ref}
  {g h : Valuation → Bool}

theorem yields_atMostOneFrom (hnone : s.Denotes noneYet g) (hwithin : s.Denotes within h)
    (hrs : s.DenoteAll rs fs) :
    Yields s (atMostOneFrom noneYet within rs) fun q t => t.Denotes q fun v =>
      (h v && decide ((values fs v).count true = 0)) ||
        (g v && decide ((values fs v).count true = 1)) := by
  induction rs generalizing s fs noneYet within g h with
  | nil =>
    cases hrs
    exact .pure fun _ => hwithin.congr fun v => by simp
  | cons r rs ih =>
    obtain ⟨f, fs, hr, hrest, rfl⟩ := List.forall₂_cons_left_iff.1 hrs
    refine .of_valid fun hs => (yields_neg hr).bind fun clear t hst ht hclear => ?_
    refine (yields_conj hclear (hwithin.mono hs hst)).bind fun skipped u htu hu hskipped => ?_
    have hsu := hst.trans htu
    refine (yields_conj (hr.mono hs hsu) (hnone.mono hs hsu)).bind fun taken x hux hx htaken => ?_
    refine (yields_disj (hskipped.mono hu hux) htaken).bind fun within' y hxy hy hwithin' => ?_
    have hty := (htu.trans hux).trans hxy
    refine (yields_conj (hnone.mono hs (hst.trans hty)) (hclear.mono ht hty)).bind
      fun none' z hyz hz hnone' => ?_
    refine (ih hnone' (hwithin'.mono hy hyz)
      (Store.DenoteAll.mono hrest hs ((hst.trans hty).trans hyz))).mono fun q _ _ _ hq =>
        hq.congr fun v => ?_
    rw [values_cons, List.count_cons]
    cases f v <;> cases g v <;> cases h v <;> simp

/-- **At most one holds.** -/
theorem yields_atMostOne (hrs : s.DenoteAll rs fs) :
    Yields s (atMostOne rs) fun q t => t.Denotes q fun v =>
      decide ((values fs v).count true ≤ 1) :=
  .of_valid fun hs => (yields_atMostOneFrom hs.denotes_top hs.denotes_top hrs).mono
    fun _ _ _ _ hq => hq.congr fun v => by
      rw [Bool.true_and, Bool.true_and, ← Bool.decide_or, decide_eq_decide]
      omega

/-- **Exactly one holds.** -/
theorem yields_exactlyOne (hrs : s.DenoteAll rs fs) :
    Yields s (exactlyOne rs) fun q t => t.Denotes q fun v =>
      decide ((values fs v).count true = 1) := by
  refine .of_valid fun hs => (yields_atMostOne hrs).bind fun few t hst ht hfew => ?_
  refine (yields_disjAll (Store.DenoteAll.mono hrs hs hst)).bind fun present u htu _ hpresent => ?_
  refine (yields_conj (hfew.mono ht htu) hpresent).mono fun q _ _ _ hq => hq.congr fun v => ?_
  have hany : fs.any (· v) = decide (0 < (values fs v).count true) := by
    rw [Bool.eq_iff_iff, decide_eq_true_iff, List.count_pos_iff, List.any_eq_true, List.mem_map]
  rw [hany, ← Bool.decide_and, decide_eq_decide]
  omega

end

/-! ### Choices -/

section
variable {α : Type} [DecidableEq α] {s : Store} {rs : List Ref} {fs : List (Valuation → Bool)}

/-- One bit per alternative, true for the given one only. -/
def oneHot (alternatives : List α) (a : α) : List Bool := alternatives.map (decide <| · = a)

theorem length_oneHot (alternatives : List α) (a : α) :
    (oneHot alternatives a).length = alternatives.length := List.length_map ..

theorem oneHot_inj {alternatives : List α} {a b : α} (ha : a ∈ alternatives) :
    oneHot alternatives b = oneHot alternatives a ↔ b = a := by
  rw [oneHot, oneHot, List.map_inj_left]
  constructor
  · intro hflags
    have h := hflags a ha
    rw [decide_eq_decide] at h
    exact (h.2 rfl).symm
  · rintro rfl
    exact fun _ _ => rfl

theorem count_oneHot (alternatives : List α) (a : α) :
    (oneHot alternatives a).count true = alternatives.count a := by
  rw [oneHot, List.count_eq_countP, List.countP_map, List.count_eq_countP]
  refine List.countP_congr fun b _ => ?_
  rw [Function.comp, beq_true]
  rfl

theorem count_oneHot_eq_one {xs : List α} (h : xs.Nodup) {a : α} (ha : a ∈ xs) :
    (oneHot xs a).count true = 1 := by
  rw [count_oneHot, List.count_eq_one_of_mem h ha]

/-- A block with one true bit marks one of as many different alternatives. -/
theorem exists_eq_oneHot {xs : List α} {bs : List Bool}
    (hnodup : xs.Nodup) (hlen : bs.length = xs.length) (hcount : bs.count true = 1) :
    ∃ a ∈ xs, bs = oneHot xs a := by
  induction xs generalizing bs with
  | nil =>
    rw [List.length_eq_zero_iff.1 hlen] at hcount
    exact nomatch hcount
  | cons x xs ih =>
    obtain ⟨b, bs, rfl⟩ := List.exists_cons_of_length_eq_add_one hlen
    obtain ⟨hx, hxs⟩ := List.nodup_cons.1 hnodup
    have hrest : bs.length = xs.length := Nat.succ.inj hlen
    cases b with
    | true =>
      rw [List.count_cons_self, Nat.add_eq_right, List.count_eq_zero] at hcount
      refine ⟨x, List.mem_cons_self, ?_⟩
      rw [oneHot, List.map_cons, decide_eq_true rfl]
      refine congrArg (true :: ·) (List.ext_getElem (by rw [hrest, List.length_map]) ?_)
      intro i hi hi'
      have hb : bs[i] = false := Bool.eq_false_iff.2 fun h => hcount (h ▸ List.getElem_mem hi)
      have hlt : i < xs.length := hrest ▸ hi
      have hne : xs[i] ≠ x := fun h => hx (h ▸ List.getElem_mem hlt)
      rw [hb, List.getElem_map, decide_eq_false hne]
    | false =>
      rw [List.count_cons_of_ne (by decide)] at hcount
      obtain ⟨a, ha, rfl⟩ := ih hxs hrest hcount
      refine ⟨a, List.mem_cons_of_mem _ ha, ?_⟩
      have hne : x ≠ a := fun h => hx (h ▸ ha)
      rw [oneHot, oneHot, List.map_cons, decide_eq_false hne]

/-- One bit per position, true for position `i` only. -/
def mark (i count : Nat) : List Bool := oneHot (List.range count) i

theorem mark_zero (count : Nat) : mark 0 (count + 1) = true :: List.replicate count false := by
  rw [mark, oneHot, List.range_succ_eq_map, List.map_cons, List.map_map]
  refine congrArg (true :: ·) (List.eq_replicate_iff.2 ⟨by simp, fun b hb => ?_⟩)
  obtain ⟨j, -, rfl⟩ := List.mem_map.1 hb
  exact decide_eq_false (Nat.succ_ne_zero j)

theorem mark_succ (i count : Nat) : mark (i + 1) (count + 1) = false :: mark i count := by
  rw [mark, mark, oneHot, oneHot, List.range_succ_eq_map, List.map_cons, List.map_map]
  refine congrArg (false :: ·) (List.map_congr_left fun j _ => ?_)
  exact decide_eq_decide.2 Nat.succ_inj

/-- Among different alternatives the bits of one of them mark its position. -/
theorem oneHot_eq_mark {alternatives : List α} (hnodup : alternatives.Nodup) {a : α} {i : Nat}
    (hi : alternatives.idxOf? a = some i) : oneHot alternatives a = mark i alternatives.length := by
  obtain ⟨hlt, heq, -⟩ := List.idxOf?_eq_some_iff.1 hi
  refine List.ext_getElem ?_ fun j hj hj' => ?_
  · rw [mark, length_oneHot, length_oneHot, List.length_range]
  · rw [length_oneHot] at hj
    simp only [mark, oneHot, List.getElem_map, List.getElem_range, decide_eq_decide]
    have hinj : alternatives[j] = alternatives[i] ↔ j = i := List.Nodup.getElem_inj_iff hnodup
    rwa [heq] at hinj

theorem yields_mapM_neg (hrs : s.DenoteAll rs fs) :
    Yields s (rs.mapM neg) fun qs t => t.DenoteAll qs (fs.map fun f v => !f v) := by
  induction rs generalizing s fs with
  | nil =>
    cases hrs
    exact .pure fun _ => .nil
  | cons r rs ih =>
    obtain ⟨f, fs, hr, hrest, rfl⟩ := List.forall₂_cons_left_iff.1 hrs
    rw [List.mapM_cons]
    refine .of_valid fun hs => (yields_neg hr).bind fun q t hst ht hq => ?_
    refine (ih (Store.DenoteAll.mono hrest hs hst)).bind fun qs u htu _ hqs => ?_
    exact .pure fun _ => .cons (hq.mono ht htu) hqs

/-- The literals that ask for the variable at one position and for no other one. -/
theorem yields_choiceLiterals {i : Nat} (hrs : s.DenoteAll rs fs) (hi : i < fs.length) :
    Yields s (Choice.literals i rs) fun qs t => ∃ gs, t.DenoteAll qs gs ∧
      ∀ v, gs.all (· v) = decide (values fs v = mark i fs.length) := by
  induction rs generalizing s fs i with
  | nil =>
    cases hrs
    exact absurd hi (Nat.not_lt_zero _)
  | cons r rs ih =>
    obtain ⟨f, fs, hr, hrest, rfl⟩ := List.forall₂_cons_left_iff.1 hrs
    cases i with
    | zero =>
      refine .of_valid fun hs => (yields_mapM_neg hrest).bind fun qs t hst ht hqs => ?_
      refine .pure fun _ => ⟨_, .cons (hr.mono hs hst) hqs, fun v => ?_⟩
      rw [List.length_cons, mark_zero, values_cons, List.all_cons, Bool.eq_iff_iff,
        Bool.and_eq_true, decide_eq_true_iff, List.cons.injEq, List.eq_replicate_iff,
        List.all_eq_true, List.forall_mem_map, List.forall_mem_map, List.length_map]
      simp only [Bool.not_eq_true', true_and]
    | succ i =>
      refine .of_valid fun hs => (yields_neg hr).bind fun clear t hst ht hclear => ?_
      rw [List.length_cons, Nat.add_lt_add_iff_right] at hi
      refine (ih (Store.DenoteAll.mono hrest hs hst) hi).bind fun qs u htu _ hqs => ?_
      obtain ⟨gs, hgs, hall⟩ := hqs
      refine .pure fun _ => ⟨_, .cons (hclear.mono ht htu) hgs, fun v => ?_⟩
      rw [List.length_cons, mark_succ, values_cons, List.all_cons, hall, Bool.eq_iff_iff,
        Bool.and_eq_true, decide_eq_true_iff, decide_eq_true_iff, List.cons.injEq,
        Bool.not_eq_true']

/-- **A choice is equal to one of its alternatives** exactly when it selects that one alone. -/
theorem yields_choiceEq {c : Choice α} (hc : s.DenoteAll c.selectors fs)
    (hlen : fs.length = c.alternatives.length) (hnodup : c.alternatives.Nodup) {a : α}
    (ha : a ∈ c.alternatives) :
    Yields s (c.eq a) fun q t => t.Denotes q fun v =>
      decide (values fs v = oneHot c.alternatives a) := by
  obtain ⟨i, hi⟩ := Option.isSome_iff_exists.1 (List.isSome_idxOf?.2 ha)
  obtain ⟨hlt, -, -⟩ := List.idxOf?_eq_some_iff.1 hi
  rw [Choice.eq, hi, oneHot_eq_mark hnodup hi, ← hlen]
  refine (yields_choiceLiterals hc (hlen ▸ hlt)).bind fun qs t _ _ hqs => ?_
  obtain ⟨gs, hgs, hall⟩ := hqs
  exact (yields_conjAll hgs).mono fun q _ _ _ hq => hq.congr hall

end
end Diagram
end RouteSolver
