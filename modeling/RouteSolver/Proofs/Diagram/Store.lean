/-
# Valid stores

A store is valid (`Store.Valid`) when every node is reduced and asks for its variable before its
children ask for theirs, when the index finds exactly the nodes that are there, and when the tables
of earlier results hold right results. Then a reference denotes one Boolean function for good
(`Store.Denotes`): a later store, `s ≤ t`, only adds nodes.

Two facts carry everything else. A diagram other than the false one is true somewhere
(`Valid.exists_eval_eq_true`), and two references that denote the same function are equal
(`Valid.eq_of_eval_eq`), so that what a diagram asks for can be read off its function
(`Valid.startsAt_of_dependsFrom`).
-/

import RouteSolver.Diagram.Basic
import Mathlib.Order.Basic

namespace RouteSolver
namespace Diagram

/-- A value for every variable. -/
abbrev Valuation := Nat → Bool

/-- The function does not depend on variables below `i`. -/
def DependsFrom (i : Nat) (f : Valuation → Bool) : Prop :=
  ∀ v w : Valuation, (∀ j, i ≤ j → v j = w j) → f v = f w

/-- The valuation with another value for one variable. -/
def Valuation.set (v : Valuation) (i : Nat) (b : Bool) : Valuation :=
  fun j => if j = i then b else v j

@[simp]
theorem Valuation.set_self (v : Valuation) (i : Nat) (b : Bool) : v.set i b i = b := if_pos rfl

theorem Valuation.set_of_ne {v : Valuation} {i j : Nat} {b : Bool} (h : j ≠ i) :
    v.set i b j = v j := if_neg h

theorem DependsFrom.set {i : Nat} {f : Valuation → Bool} (h : DependsFrom (i + 1) f)
    (v : Valuation) (b : Bool) : f (v.set i b) = f v :=
  h _ _ fun _ hj => Valuation.set_of_ne (by omega)

/-- What a connective does to truth values. -/
def Connective.apply : Connective → Bool → Bool → Bool
  | conj => and
  | disj => or

namespace Ref

theorem isConstant_iff {r : Ref} : r.isConstant = true ↔ r = .bot ∨ r = .top := by
  obtain ⟨n⟩ := r
  rw [isConstant, decide_eq_true_iff]
  simp only [bot, top, mk.injEq]
  omega

theorem isConstant_eq_false_iff {r : Ref} : r.isConstant = false ↔ r ≠ .bot ∧ r ≠ .top := by
  rw [← Bool.not_eq_true, isConstant_iff, not_or]

theorem two_le_id {r : Ref} (h : r.isConstant = false) : 2 ≤ r.id := by
  rw [isConstant, decide_eq_false_iff_not] at h
  omega

end Ref

namespace Store

variable {s t u : Store} {r a b : Ref} {i : Nat} {v w : Valuation}

/-! ### Diagrams of a store -/

/-- The reference names a diagram of the store. -/
def Has (s : Store) (r : Ref) : Prop := r.id < s.size

/-- The diagram asks for no variable below `i`. -/
def StartsAt (s : Store) (i : Nat) (r : Ref) : Prop :=
  r.isConstant = false → i ≤ (s.node r).level

theorem StartsAt.mono {j : Nat} (h : s.StartsAt j r) (hij : i ≤ j) : s.StartsAt i r :=
  fun hr => Nat.le_trans hij (h hr)

/-- A node is reduced, younger than its children, and asks for its variable before they do. -/
structure Proper (s : Store) (r : Ref) : Prop where
  low_lt : (s.node r).low.id < r.id
  high_lt : (s.node r).high.id < r.id
  low_ne_high : (s.node r).low ≠ (s.node r).high
  low_startsAt : s.StartsAt ((s.node r).level + 1) (s.node r).low
  high_startsAt : s.StartsAt ((s.node r).level + 1) (s.node r).high
  level_lt : (s.node r).level < s.variableCount

/-- All nodes are proper, the index finds exactly the nodes, and the tables are right. -/
structure Valid (s : Store) : Prop where
  two_le_size : 2 ≤ s.size
  proper : ∀ r, s.Has r → r.isConstant = false → s.Proper r
  index_iff : ∀ (n : Node) (r : Ref),
    s.index[n]? = some r ↔ s.Has r ∧ r.isConstant = false ∧ s.node r = n
  negated : ∀ r q : Ref, s.negated[r]? = some q →
    s.Has r ∧ s.Has q ∧ ∀ v, s.eval q v = !s.eval r v
  combined : ∀ (op : Connective) (a b q : Ref), s.combined[(op, a, b)]? = some q →
    s.Has a ∧ s.Has b ∧ s.Has q ∧ ∀ v, s.eval q v = op.apply (s.eval a v) (s.eval b v)

theorem Valid.has_bot (hs : s.Valid) : s.Has .bot := Nat.lt_of_lt_of_le (by decide) hs.two_le_size

theorem Valid.has_top (hs : s.Valid) : s.Has .top := Nat.lt_of_lt_of_le (by decide) hs.two_le_size

theorem Valid.has_low (hs : s.Valid) (h : s.Has r) (hr : r.isConstant = false) :
    s.Has (s.node r).low :=
  Nat.lt_trans (hs.proper r h hr).low_lt h

theorem Valid.has_high (hs : s.Valid) (h : s.Has r) (hr : r.isConstant = false) :
    s.Has (s.node r).high :=
  Nat.lt_trans (hs.proper r h hr).high_lt h

/-! ### The value of a diagram -/

@[simp]
theorem eval_bot (s : Store) (v : Valuation) : s.eval .bot v = false := rfl

@[simp]
theorem eval_top (s : Store) (v : Valuation) : s.eval .top v = true := rfl

theorem evalWithin_of_isConstant (s : Store) (v : Valuation) (n : Nat) (h : r.isConstant = true) :
    s.evalWithin v n r = (r == .top) := by
  cases n with
  | zero => rfl
  | succ n => rw [evalWithin, if_pos h]

/-- Once the bound reaches the position of the root, it no longer matters. -/
theorem Valid.evalWithin_eq (hs : s.Valid) (v : Valuation) {n m : Nat} (h : s.Has r)
    (hn : r.id ≤ n) (hm : r.id ≤ m) : s.evalWithin v n r = s.evalWithin v m r := by
  induction n generalizing m r with
  | zero =>
    have hr : r.isConstant = true := decide_eq_true (by omega)
    rw [evalWithin_of_isConstant s v _ hr, evalWithin_of_isConstant s v _ hr]
  | succ n ih =>
    by_cases hr : r.isConstant = true
    · rw [evalWithin_of_isConstant s v _ hr, evalWithin_of_isConstant s v _ hr]
    · have hr' := Bool.eq_false_iff.2 hr
      have hp := hs.proper r h hr'
      have h2 := Ref.two_le_id hr'
      obtain ⟨m, rfl⟩ : ∃ k, m = k + 1 := ⟨m - 1, by omega⟩
      rw [evalWithin, if_neg hr, evalWithin, if_neg hr]
      dsimp only
      split
      · exact ih (hs.has_high h hr') (by have := hp.high_lt; omega)
          (by have := hp.high_lt; omega)
      · exact ih (hs.has_low h hr') (by have := hp.low_lt; omega) (by have := hp.low_lt; omega)

/-- **A node asks for its variable** and goes on with the child for the answer. -/
theorem Valid.eval_node (hs : s.Valid) (h : s.Has r) (hr : r.isConstant = false) (v : Valuation) :
    s.eval r v =
      if v (s.node r).level then s.eval (s.node r).high v else s.eval (s.node r).low v := by
  have hp := hs.proper r h hr
  obtain ⟨n, hn⟩ : ∃ n, r.id = n + 1 := ⟨r.id - 1, by have := Ref.two_le_id hr; omega⟩
  rw [eval, hn, evalWithin, if_neg (by simp [hr])]
  dsimp only
  split
  · exact hs.evalWithin_eq v (hs.has_high h hr) (by have := hp.high_lt; omega) (Nat.le_refl _)
  · exact hs.evalWithin_eq v (hs.has_low h hr) (by have := hp.low_lt; omega) (Nat.le_refl _)

/-- A diagram depends only on the variables that it asks for. -/
theorem Valid.dependsFrom (hs : s.Valid) (h : s.Has r) (hi : s.StartsAt i r) :
    DependsFrom i (s.eval r) := by
  intro v w hvw
  induction hn : r.id using Nat.strongRecOn generalizing r i with
  | ind n ih =>
    by_cases hr : r.isConstant = true
    · rcases Ref.isConstant_iff.1 hr with rfl | rfl <;> rfl
    · have hr' := Bool.eq_false_iff.2 hr
      have hp := hs.proper r h hr'
      have hle : i ≤ (s.node r).level := hi hr'
      have hlow : s.eval (s.node r).low v = s.eval (s.node r).low w :=
        ih _ (hn ▸ hp.low_lt) (hs.has_low h hr') (hp.low_startsAt.mono (by omega)) hvw rfl
      have hhigh : s.eval (s.node r).high v = s.eval (s.node r).high w :=
        ih _ (hn ▸ hp.high_lt) (hs.has_high h hr') (hp.high_startsAt.mono (by omega)) hvw rfl
      rw [hs.eval_node h hr', hs.eval_node h hr', hvw _ hle, hlow, hhigh]

/-- A diagram does not depend on variables that have not been named. -/
theorem Valid.eval_congr (hs : s.Valid) (h : s.Has r)
    (hvw : ∀ j, j < s.variableCount → v j = w j) : s.eval r v = s.eval r w := by
  induction hn : r.id using Nat.strongRecOn generalizing r with
  | ind n ih =>
    by_cases hr : r.isConstant = true
    · rcases Ref.isConstant_iff.1 hr with rfl | rfl <;> rfl
    · have hr' := Bool.eq_false_iff.2 hr
      have hp := hs.proper r h hr'
      rw [hs.eval_node h hr', hs.eval_node h hr', hvw _ hp.level_lt,
        ih _ (hn ▸ hp.low_lt) (hs.has_low h hr') rfl,
        ih _ (hn ▸ hp.high_lt) (hs.has_high h hr') rfl]

/-- The value of a node when its variable is false. -/
theorem Valid.eval_low (hs : s.Valid) (h : s.Has r) (hr : r.isConstant = false) (v : Valuation) :
    s.eval (s.node r).low v = s.eval r (v.set (s.node r).level false) := by
  have hd := hs.dependsFrom (hs.has_low h hr) (hs.proper r h hr).low_startsAt
  rw [hs.eval_node h hr, Valuation.set_self, if_neg Bool.false_ne_true, hd.set]

/-- The value of a node when its variable is true. -/
theorem Valid.eval_high (hs : s.Valid) (h : s.Has r) (hr : r.isConstant = false) (v : Valuation) :
    s.eval (s.node r).high v = s.eval r (v.set (s.node r).level true) := by
  have hd := hs.dependsFrom (hs.has_high h hr) (hs.proper r h hr).high_startsAt
  rw [hs.eval_node h hr, Valuation.set_self, if_pos rfl, hd.set]

/-! ### Canonicity -/

/-- A diagram that is not constant takes both values. -/
theorem Valid.exists_eval_eq (hs : s.Valid) (h : s.Has r) (hr : r.isConstant = false)
    (c : Bool) : ∃ v, s.eval r v = c := by
  induction hn : r.id using Nat.strongRecOn generalizing r with
  | ind n ih =>
    have hp := hs.proper r h hr
    -- of two different children one takes the value, because at most one is the other constant
    have key : (∃ v, s.eval (s.node r).low v = c) ∨ ∃ v, s.eval (s.node r).high v = c := by
      by_cases hl : (s.node r).low.isConstant = false
      · exact .inl (ih _ (hn ▸ hp.low_lt) (hs.has_low h hr) hl rfl)
      by_cases hh : (s.node r).high.isConstant = false
      · exact .inr (ih _ (hn ▸ hp.high_lt) (hs.has_high h hr) hh rfl)
      have hne := hp.low_ne_high
      rw [Bool.not_eq_false, Ref.isConstant_iff] at hl hh
      rcases hl with hl | hl <;> rcases hh with hh | hh
      · exact absurd (hl.trans hh.symm) hne
      · rw [hl, hh]; cases c <;> simp
      · rw [hl, hh]; cases c <;> simp
      · exact absurd (hl.trans hh.symm) hne
    rcases key with ⟨v, hv⟩ | ⟨v, hv⟩
    · exact ⟨_, (hs.eval_low h hr v).symm.trans hv⟩
    · exact ⟨_, (hs.eval_high h hr v).symm.trans hv⟩

/-- **Only the false diagram is false everywhere.** -/
theorem Valid.exists_eval_eq_true (hs : s.Valid) (h : s.Has r) (hr : r ≠ .bot) :
    ∃ v, s.eval r v = true := by
  by_cases ht : r = .top
  · exact ⟨fun _ => false, ht ▸ rfl⟩
  · exact hs.exists_eval_eq h (Ref.isConstant_eq_false_iff.2 ⟨hr, ht⟩) true

/-- Only the true diagram is true everywhere. -/
theorem Valid.exists_eval_eq_false (hs : s.Valid) (h : s.Has r) (hr : r ≠ .top) :
    ∃ v, s.eval r v = false := by
  by_cases ht : r = .bot
  · exact ⟨fun _ => false, ht ▸ rfl⟩
  · exact hs.exists_eval_eq h (Ref.isConstant_eq_false_iff.2 ⟨ht, hr⟩) false

/-- A function that does not depend on variables below `i` is denoted by a diagram that does not
ask for them: else its two children would denote the same function. -/
theorem Valid.startsAt_of_children (hs : s.Valid) (h : s.Has r)
    (heq : r.isConstant = false →
      (∀ v, s.eval (s.node r).low v = s.eval (s.node r).high v) →
        (s.node r).low = (s.node r).high)
    (hd : DependsFrom i (s.eval r)) : s.StartsAt i r := by
  intro hr
  by_contra hlt
  refine (hs.proper r h hr).low_ne_high (heq hr fun v => ?_)
  rw [hs.eval_low h hr, hs.eval_high h hr]
  refine hd _ _ fun j hj => ?_
  rw [Valuation.set_of_ne (by omega), Valuation.set_of_ne (by omega)]

/-- A constant is the only diagram of its function. -/
theorem Valid.eq_of_isConstant (hs : s.Valid) (ha : a.isConstant = true) (hb : s.Has b)
    (hab : ∀ v, s.eval a v = s.eval b v) : a = b := by
  by_contra hne
  rcases Ref.isConstant_iff.1 ha with rfl | rfl
  · obtain ⟨v, hv⟩ := hs.exists_eval_eq_true hb (Ne.symm hne)
    exact absurd ((hab v).trans hv) (by simp)
  · obtain ⟨v, hv⟩ := hs.exists_eval_eq_false hb (Ne.symm hne)
    exact absurd ((hab v).trans hv) (by simp)

/-- The index has one place for each node. -/
theorem Valid.eq_of_node_eq (hs : s.Valid) (ha : s.Has a) (hb : s.Has b)
    (hca : a.isConstant = false) (hcb : b.isConstant = false)
    (hlevel : (s.node a).level = (s.node b).level) (hlow : (s.node a).low = (s.node b).low)
    (hhigh : (s.node a).high = (s.node b).high) : a = b := by
  have hnode : s.node a = s.node b := by
    cases hna : s.node a
    cases hnb : s.node b
    simp_all
  have hia := (hs.index_iff (s.node a) a).2 ⟨ha, hca, rfl⟩
  have hib := (hs.index_iff (s.node b) b).2 ⟨hb, hcb, rfl⟩
  exact Option.some.inj (hia.symm.trans (hnode ▸ hib))

/-- **Two references that denote the same function are equal.** -/
theorem Valid.eq_of_eval_eq (hs : s.Valid) (ha : s.Has a) (hb : s.Has b)
    (hab : ∀ v, s.eval a v = s.eval b v) : a = b := by
  -- The bound is on both positions, since the two children of one node are compared as well.
  suffices H : ∀ n, ∀ a b : Ref, a.id < n → b.id < n → s.Has a → s.Has b →
      (∀ v, s.eval a v = s.eval b v) → a = b from
    H (max a.id b.id + 1) a b (by omega) (by omega) ha hb hab
  intro n
  induction n with
  | zero => intro a b h; exact absurd h (Nat.not_lt_zero _)
  | succ n ih =>
    intro a b han hbn ha hb hab
    by_cases hca : a.isConstant = true
    · exact hs.eq_of_isConstant hca hb hab
    by_cases hcb : b.isConstant = true
    · exact (hs.eq_of_isConstant hcb ha fun v => (hab v).symm).symm
    rw [Bool.not_eq_true] at hca hcb
    have hpa := hs.proper a ha hca
    have hpb := hs.proper b hb hcb
    have starts : ∀ {c : Ref} {i : Nat}, c.id < n + 1 → s.Has c → DependsFrom i (s.eval c) →
        s.StartsAt i c := fun hc h hd =>
      hs.startsAt_of_children h (fun hr =>
        ih _ _ (by have := (hs.proper _ h hr).low_lt; omega)
          (by have := (hs.proper _ h hr).high_lt; omega) (hs.has_low h hr) (hs.has_high h hr)) hd
    have hle : (s.node b).level ≤ (s.node a).level :=
      starts han ha (funext hab ▸ hs.dependsFrom hb fun _ => Nat.le_refl _) hca
    have hge : (s.node a).level ≤ (s.node b).level :=
      starts hbn hb (funext hab ▸ hs.dependsFrom ha fun _ => Nat.le_refl _) hcb
    have hlevel : (s.node a).level = (s.node b).level := Nat.le_antisymm hge hle
    have hlow : (s.node a).low = (s.node b).low :=
      ih _ _ (by have := hpa.low_lt; omega) (by have := hpb.low_lt; omega) (hs.has_low ha hca)
        (hs.has_low hb hcb) fun v => by
          rw [hs.eval_low ha hca, hs.eval_low hb hcb, hab, hlevel]
    have hhigh : (s.node a).high = (s.node b).high :=
      ih _ _ (by have := hpa.high_lt; omega) (by have := hpb.high_lt; omega) (hs.has_high ha hca)
        (hs.has_high hb hcb) fun v => by
          rw [hs.eval_high ha hca, hs.eval_high hb hcb, hab, hlevel]
    exact hs.eq_of_node_eq ha hb hca hcb hlevel hlow hhigh

/-- **What a diagram asks for can be read off its function.** -/
theorem Valid.startsAt_of_dependsFrom (hs : s.Valid) (h : s.Has r)
    (hd : DependsFrom i (s.eval r)) : s.StartsAt i r :=
  hs.startsAt_of_children h
    (fun hr => hs.eq_of_eval_eq (hs.has_low h hr) (hs.has_high h hr)) hd

end Store
end Diagram
end RouteSolver
