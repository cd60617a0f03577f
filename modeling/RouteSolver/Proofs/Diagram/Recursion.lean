/-
# The recursions end

Negation and the binary connectives go down from a diagram to its children, and add nodes and table
entries on the way back. What they are bounded by in `negWithin` and `combineWithin` is no part of
that: `NegRun` and `CombineRun` are the same recursions without a bound, with one rule for each way
in which a call is answered. A run is a finite derivation, so a call has a run exactly if its
recursion ends.

On the diagrams of a valid store every call has one run, and it is what the bounded recursion does
(`Store.Valid.negRun_iff`, `Store.Valid.combineRun_iff`). The second of two nested calls starts from
the store that the first one leaves, so the induction needs that this store is valid again and has
the children of the old nodes; then the positions of the operands go down with every call.
-/

import RouteSolver.Proofs.Diagram.Connective

namespace RouteSolver
namespace Diagram

/-! ### Negation -/

/-- The recursion of negation, without a bound: called for `r` in the store `s`, it ends with the
result `q` in the store `t`. -/
inductive NegRun : Store → Ref → Ref → Store → Prop
  | bot {s r} (hr : r = .bot) : NegRun s r .top s
  | top {s r} (hr : r = .top) : NegRun s r .bot s
  | known {s r q} (hr : r.isConstant = false) (hq : s.negated[r]? = some q) : NegRun s r q s
  | node {s t u x r low high q} (hr : r.isConstant = false) (hnew : s.negated[r]? = none)
    (hlow : NegRun s (s.node r).low low t) (hhigh : NegRun t (s.node r).high high u)
    (hask : ask (s.node r).level low high u = (q, x)) :
    NegRun s r q { x with negated := x.negated.insert r q }

section
variable {s t : Store} {r q : Ref}

/-- Reading the store and going on. -/
theorem get_bind {β : Type} (k : Store → Build β) (s : Store) :
    (MonadState.get >>= k) s = k s s := rfl

theorem negWithin_bot (n : Nat) (s : Store) : negWithin (n + 1) .bot s = (.top, s) := rfl

theorem negWithin_top (n : Nat) (s : Store) : negWithin (n + 1) .top s = (.bot, s) := rfl

/-- A diagram that asks a question is looked up in the table, or else its children are negated. -/
theorem negWithin_succ (hr : r.isConstant = false) (n : Nat) (s : Store) :
    negWithin (n + 1) r s =
      match s.negated[r]? with
      | some known => (known, s)
      | none =>
        let low := negWithin n (s.node r).low s
        let high := negWithin n (s.node r).high low.2
        let answer := ask (s.node r).level low.1 high.1 high.2
        (answer.1, { answer.2 with negated := answer.2.negated.insert r answer.1 }) := by
  obtain ⟨hbot, htop⟩ := Ref.isConstant_eq_false_iff.1 hr
  rw [negWithin, if_neg hbot, if_neg htop, get_bind]
  cases s.negated[r]? <;> rfl

/-- After the low child has been negated, its sibling is still there. -/
theorem Store.Valid.negWithin_low {n : Nat} (hs : s.Valid) (h : s.Has r) (hr : r.isConstant = false)
    (hn : r.id < n + 1) :
    (s.node r).low.id < n ∧ (s.node r).high.id < n ∧
      (negWithin n (s.node r).low s).2.Valid ∧
      (negWithin n (s.node r).low s).2.Has (s.node r).high := by
  have hp := hs.proper r h hr
  have hlow : (s.node r).low.id < n := by have := hp.low_lt; omega
  have hhigh : (s.node r).high.id < n := by have := hp.high_lt; omega
  obtain ⟨ht, hst, -⟩ := yields_negWithin n hlow (hs.has_low h hr).denotes hs
  exact ⟨hlow, hhigh, ht, (hs.has_high h hr).mono hst⟩

/-- **Negation has a run**: the one that the bounded recursion makes. -/
theorem Store.Valid.negRun_negWithin {n : Nat} (hs : s.Valid) (h : s.Has r) (hn : r.id < n) :
    NegRun s r (negWithin n r s).1 (negWithin n r s).2 := by
  induction n generalizing s r with
  | zero => exact absurd hn (Nat.not_lt_zero _)
  | succ n ih =>
    by_cases hbot : r = .bot
    · subst hbot
      exact .bot rfl
    by_cases htop : r = .top
    · subst htop
      exact .top rfl
    have hr := Ref.isConstant_eq_false_iff.2 ⟨hbot, htop⟩
    obtain ⟨hlow, hhigh, ht, hthigh⟩ := hs.negWithin_low h hr hn
    rw [negWithin_succ hr]
    cases hq : s.negated[r]? with
    | some q => exact .known hr hq
    | none => exact .node hr hq (ih hs (hs.has_low h hr) hlow) (ih ht hthigh hhigh) rfl

/-- A run is what the recursion makes within any bound that its operand allows. -/
theorem NegRun.negWithin_eq (h : NegRun s r q t) (hs : s.Valid) (hr : s.Has r) {n : Nat}
    (hn : r.id ≤ n) : negWithin (n + 1) r s = (q, t) := by
  induction h generalizing n with
  | bot hbot => rw [hbot, negWithin_bot]
  | top htop => rw [htop, negWithin_top]
  | known hc hq => rw [negWithin_succ hc, hq]
  | node hc hnew _ _ hask ihlow ihhigh =>
    obtain ⟨n, rfl⟩ : ∃ k, n = k + 1 := ⟨n - 1, by have := Ref.two_le_id hc; omega⟩
    obtain ⟨hlow, hhigh, ht, hthigh⟩ := hs.negWithin_low hr hc (Nat.lt_succ_of_le hn)
    have hlowrun := ihlow hs (hs.has_low hr hc) (Nat.le_of_lt_succ hlow)
    -- the store that the low call leaves is the one in which the high call starts
    rw [hlowrun] at ht hthigh
    have hhighrun := ihhigh ht hthigh (Nat.le_of_lt_succ hhigh)
    rw [negWithin_succ hc, hnew]
    dsimp only
    rw [hlowrun, hhighrun, hask]

/-- **The recursion of negation ends**, in exactly one way. -/
theorem Store.Valid.negRun_iff (hs : s.Valid) (hr : s.Has r) :
    NegRun s r q t ↔ (neg r).run s = (q, t) := by
  constructor
  · exact fun h => h.negWithin_eq hs hr (Nat.le_refl _)
  · intro h
    have hrun := hs.negRun_negWithin hr (Nat.lt_succ_self _)
    rwa [show negWithin (r.id + 1) r s = (q, t) from h] at hrun

end

/-! ### Binary connectives -/

/-- Where the table keeps the result for two operands, in whatever order they are given. -/
def Connective.key (op : Connective) (a b : Ref) : Connective × Ref × Ref :=
  if a.id ≤ b.id then (op, a, b) else (op, b, a)

/-- The recursion of a connective, without a bound: called for `a` and `b` in the store `s`, it ends
with the result `q` in the store `t`. The first three rules are tried in their order; where none of
them applies, both operands ask a question and they are different. -/
inductive CombineRun (op : Connective) : Store → Ref → Ref → Ref → Store → Prop
  | absorbed {s a b} (h : a = op.absorbing ∨ b = op.absorbing) : CombineRun op s a b op.absorbing s
  | second {s a b} (habs : ¬(a = op.absorbing ∨ b = op.absorbing)) (h : a = op.neutral ∨ a = b) :
    CombineRun op s a b b s
  | first {s a b} (habs : ¬(a = op.absorbing ∨ b = op.absorbing))
    (hsecond : ¬(a = op.neutral ∨ a = b)) (h : b = op.neutral) : CombineRun op s a b a s
  | known {s a b q} (ha : a.isConstant = false) (hb : b.isConstant = false) (hab : a ≠ b)
    (hq : s.combined[op.key a b]? = some q) : CombineRun op s a b q s
  | node {s t u x a b level low high q} (ha : a.isConstant = false) (hb : b.isConstant = false)
    (hab : a ≠ b) (hnew : s.combined[op.key a b]? = none)
    (hlevel : min (s.node a).level (s.node b).level = level)
    (hlow : CombineRun op s (s.cofactors a level).1 (s.cofactors b level).1 low t)
    (hhigh : CombineRun op t (s.cofactors a level).2 (s.cofactors b level).2 high u)
    (hask : ask level low high u = (q, x)) :
    CombineRun op s a b q { x with combined := x.combined.insert (op.key a b) q }

section
variable {s t : Store} {q a b : Ref} {op : Connective}

theorem Connective.ne_absorbing (h : a.isConstant = false) : a ≠ op.absorbing := by
  obtain ⟨hbot, htop⟩ := Ref.isConstant_eq_false_iff.1 h
  cases op
  · exact hbot
  · exact htop

theorem Connective.ne_neutral (h : a.isConstant = false) : a ≠ op.neutral := by
  obtain ⟨hbot, htop⟩ := Ref.isConstant_eq_false_iff.1 h
  cases op
  · exact htop
  · exact hbot

/-- Two different diagrams that ask a question are looked up in the table, or else their cofactors
for the first variable of both are combined. -/
theorem combineWithin_succ (ha : a.isConstant = false) (hb : b.isConstant = false) (hab : a ≠ b)
    (n : Nat) (s : Store) :
    combineWithin op (n + 1) a b s =
      match s.combined[op.key a b]? with
      | some known => (known, s)
      | none =>
        let level := min (s.node a).level (s.node b).level
        let low := combineWithin op n (s.cofactors a level).1 (s.cofactors b level).1 s
        let high := combineWithin op n (s.cofactors a level).2 (s.cofactors b level).2 low.2
        let answer := ask level low.1 high.1 high.2
        (answer.1,
          { answer.2 with combined := answer.2.combined.insert (op.key a b) answer.1 }) := by
  have habs : ¬(a = op.absorbing ∨ b = op.absorbing) :=
    not_or.2 ⟨Connective.ne_absorbing ha, Connective.ne_absorbing hb⟩
  have hsecond : ¬(a = op.neutral ∨ a = b) := not_or.2 ⟨Connective.ne_neutral ha, hab⟩
  rw [combineWithin, if_neg habs, if_neg hsecond, if_neg (Connective.ne_neutral hb)]
  dsimp only
  rw [get_bind, Connective.key]
  cases s.combined[if a.id ≤ b.id then (op, a, b) else (op, b, a)]? <;> rfl

/-- The store has both operands, and a recursion within the bound `n` gets through with them. -/
structure Store.Covers (s : Store) (n : Nat) (a b : Ref) : Prop where
  left : s.Has a
  right : s.Has b
  id_add_lt : a.id + b.id < n

/-- The low cofactors are covered by one less, and so are the high ones in the store that the call
for the low ones leaves. -/
theorem Store.Valid.covers_cofactors (op : Connective) {n level : Nat} (hs : s.Valid)
    (h : s.Covers (n + 1) a b) (ha : a.isConstant = false) (hb : b.isConstant = false)
    (hlevel : min (s.node a).level (s.node b).level = level) :
    s.Covers n (s.cofactors a level).1 (s.cofactors b level).1 ∧
      (combineWithin op n (s.cofactors a level).1 (s.cofactors b level).1 s).2.Valid ∧
      (combineWithin op n (s.cofactors a level).1 (s.cofactors b level).1 s).2.Covers n
        (s.cofactors a level).2 (s.cofactors b level).2 := by
  have hlt := h.id_add_lt
  have hsum := hs.cofactors_id_add_lt h.left h.right ha hb hlevel
  obtain ⟨ha0, ha1⟩ := hs.denotes_cofactors h.left.denotes ha (i := level) (by omega)
  obtain ⟨hb0, hb1⟩ := hs.denotes_cofactors h.right.denotes hb (i := level) (by omega)
  have hlow : s.Covers n (s.cofactors a level).1 (s.cofactors b level).1 :=
    ⟨ha0.has, hb0.has, by omega⟩
  obtain ⟨ht, hst, -⟩ := yields_combineWithin op n hlow.id_add_lt ha0 hb0 hs
  exact ⟨hlow, ht, ha1.has.mono hst, hb1.has.mono hst, by omega⟩

/-- **A connective has a run**: the one that the bounded recursion makes. -/
theorem Store.Valid.combineRun_combineWithin (op : Connective) {n : Nat} (hs : s.Valid)
    (h : s.Covers n a b) :
    CombineRun op s a b (combineWithin op n a b s).1 (combineWithin op n a b s).2 := by
  induction n generalizing s a b with
  | zero => exact absurd h.id_add_lt (Nat.not_lt_zero _)
  | succ n ih =>
    by_cases habs : a = op.absorbing ∨ b = op.absorbing
    · rw [combineWithin, if_pos habs]
      exact .absorbed habs
    by_cases hsecond : a = op.neutral ∨ a = b
    · rw [combineWithin, if_neg habs, if_pos hsecond]
      exact .second habs hsecond
    by_cases hfirst : b = op.neutral
    · rw [combineWithin, if_neg habs, if_neg hsecond, if_pos hfirst]
      exact .first habs hsecond hfirst
    obtain ⟨haabs, hbabs⟩ := not_or.1 habs
    obtain ⟨haneutral, hab⟩ := not_or.1 hsecond
    have ha : a.isConstant = false := Connective.isConstant_eq_false haabs haneutral
    have hb : b.isConstant = false := Connective.isConstant_eq_false hbabs hfirst
    obtain ⟨hlow, ht, hhigh⟩ := hs.covers_cofactors op h ha hb rfl
    rw [combineWithin_succ ha hb hab]
    cases hq : s.combined[op.key a b]? with
    | some q => exact .known ha hb hab hq
    | none => exact .node ha hb hab hq rfl (ih hs hlow) (ih ht hhigh) rfl

/-- A run is what the recursion makes within any bound that its operands allow. -/
theorem CombineRun.combineWithin_eq (h : CombineRun op s a b q t) (hs : s.Valid) {n : Nat}
    (hn : s.Covers (n + 1) a b) : combineWithin op (n + 1) a b s = (q, t) := by
  induction h generalizing n with
  | absorbed h => rw [combineWithin, if_pos h]; rfl
  | second habs h => rw [combineWithin, if_neg habs, if_pos h]; rfl
  | first habs hsecond h => rw [combineWithin, if_neg habs, if_neg hsecond, if_pos h]; rfl
  | known ha hb hab hq => rw [combineWithin_succ ha hb hab, hq]
  | node ha hb hab hnew hlevel _ _ hask ihlow ihhigh =>
    obtain ⟨n, rfl⟩ : ∃ k, n = k + 1 :=
      ⟨n - 1, by have := Ref.two_le_id ha; have := hn.id_add_lt; omega⟩
    obtain ⟨hlow, ht, hhigh⟩ := hs.covers_cofactors op hn ha hb hlevel
    have hlowrun := ihlow hs hlow
    rw [hlowrun] at ht hhigh
    have hhighrun := ihhigh ht hhigh
    rw [combineWithin_succ ha hb hab, hnew]
    dsimp only
    rw [hlevel, hlowrun, hhighrun, hask]

/-- **The recursion of a connective ends**, in exactly one way. -/
theorem Store.Valid.combineRun_iff (hs : s.Valid) (ha : s.Has a) (hb : s.Has b) :
    CombineRun op s a b q t ↔ (combine op a b).run s = (q, t) := by
  have hcovers : s.Covers (a.id + b.id + 1) a b := ⟨ha, hb, Nat.lt_succ_self _⟩
  constructor
  · exact fun h => h.combineWithin_eq hs hcovers
  · intro h
    have hrun := hs.combineRun_combineWithin op hcovers
    rwa [show combineWithin op (a.id + b.id + 1) a b s = (q, t) from h] at hrun

end

end Diagram
end RouteSolver
