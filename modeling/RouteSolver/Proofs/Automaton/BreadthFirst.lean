/-
# States are numbered breadth first

A walk over ascending bytes numbers the states of an automaton in the order in which it meets them
(`BreadthFirst`). The automaton of a machine is numbered in this way
(`Explorable.breadthFirst_explore`), and joining letters changes nothing of it.

Nothing is left open by such a numbering. Take two automata of one language in both of which
different states accept different byte strings (`Ordered`). If their states agree below some number,
then the next state of each is met at the same place (`AgreeBelow.succ`), since the place that comes
first would lead to an earlier state in the other automaton, where the two agree. So all of their
states agree (`Ordered.agreeBelow_size`).
-/

import RouteSolver.Proofs.Automaton.Residual

namespace RouteSolver
namespace Automaton

variable {a b : Automaton}

/-! ### The order of a walk -/

/-- The state is first met as the successor of `q` for the byte `x`: from earlier states, and from
this one for earlier bytes, only states with smaller numbers are met. -/
structure FirstMet (a : Automaton) (c q : Nat) (x : UInt8) : Prop where
  lt : q < c
  step_eq : a.step q x = c
  earlier_state : ∀ r y, r < q → a.step r y < c
  earlier_byte : ∀ y, y < x → a.step q y < c

namespace FirstMet

variable {c q : Nat} {x : UInt8}

/-- Nothing but smaller numbers is met from earlier states. -/
theorem state_le (h : a.FirstMet c q x) {r : Nat} {y : UInt8} (hle : c ≤ a.step r y) : q ≤ r :=
  Nat.not_lt.1 fun hlt => Nat.not_lt.2 hle (h.earlier_state r y hlt)

/-- Nothing but smaller numbers is met for earlier bytes. -/
theorem byte_le (h : a.FirstMet c q x) {y : UInt8} (hle : c ≤ a.step q y) : x ≤ y :=
  UInt8.not_lt.1 fun hlt => Nat.not_lt.2 hle (h.earlier_byte y hlt)

end FirstMet

/-- The states are numbered in the order in which a walk over ascending bytes meets them. -/
def BreadthFirst (a : Automaton) : Prop := ∀ c, 0 < c → c < a.size → ∃ q x, a.FirstMet c q x

/-- **The automaton of a machine** is numbered breadth first. -/
theorem Explorable.breadthFirst_explore {σ κ : Type} [BEq κ] [LawfulBEq κ] [Hashable κ]
    {alphabet : Alphabet} {key : σ → κ} {next : σ → UInt8 → σ} {accept : σ → Bool} {bound : Nat}
    {start : σ} {inv : σ → Prop} (h : Explorable alphabet key next accept bound start inv) :
    (explore alphabet key next accept bound start).BreadthFirst := by
  have hvalid := h.valid_explore
  obtain ⟨rows, met, heq, hexp, -, hsize, -⟩ := h.explored
  rw [heq] at hvalid ⊢
  intro c hpos hc
  rw [size, Array.size_map] at hc
  obtain ⟨i, k, hic, hfirst⟩ := hexp.came_from c hpos hc
  obtain ⟨row, hrow, hk, hbefore⟩ := hfirst.here
  have hlt : k < alphabet.representatives.size :=
    hvalid.size_row i row hrow ▸ (Array.getElem?_eq_some_iff.1 hk).1
  have hr := Array.getElem?_eq_getElem hlt
  have hletter := hvalid.alphabet.letter_representative k _ hr
  refine ⟨i, alphabet.representatives[k], hic, ?_, fun r y hri => ?_, fun y hy => ?_⟩
  · have hstep := hvalid.getElem?_row hrow alphabet.representatives[k]
    rw [hletter, hk, Option.some.injEq] at hstep
    exact hstep.symm
  · have hrlt : r < rows.size := Nat.lt_trans hri (Array.getElem?_eq_some_iff.1 hrow).1
    have hrow' := Array.getElem?_eq_getElem hrlt
    exact hfirst.earlier r _ hri hrow' _
      (Array.mem_toList_iff.2 (Array.mem_of_getElem? (hvalid.getElem?_row hrow' y)))
  · exact hbefore _ _ (hvalid.alphabet.letter_lt_of_lt hr hy) (hvalid.getElem?_row hrow y)

theorem Complete.breadthFirst_mergeLetters (h : a.Complete) (ha : a.BreadthFirst) :
    a.mergeLetters.BreadthFirst := by
  intro c hpos hc
  obtain ⟨q, x, hfirst⟩ := ha c hpos hc
  have hq : q < a.size := Nat.lt_trans hfirst.lt hc
  refine ⟨q, x, hfirst.lt, ?_, fun r y hr => ?_, fun y hy => ?_⟩
  · rw [h.step_mergeLetters hq, hfirst.step_eq]
  · rw [h.step_mergeLetters (Nat.lt_trans hr hq)]
    exact hfirst.earlier_state r y hr
  · rw [h.step_mergeLetters hq]
    exact hfirst.earlier_byte y hy

/-! ### Automata of one language -/

/-- A complete table in which different states accept different byte strings and are numbered
breadth first. -/
structure Ordered (a : Automaton) : Prop extends Complete a where
  reduced : a.Reduced
  breadthFirst : a.BreadthFirst

theorem Complete.ordered_minimize (h : a.Complete) : a.minimize.Ordered :=
  { h.valid_minimize.toComplete with
    reduced := h.reduced_minimize
    breadthFirst := h.explorable_classes.valid_explore.breadthFirst_mergeLetters
      h.explorable_classes.breadthFirst_explore }

/-- Below some number both automata have all states, and these accept the same byte strings. -/
def AgreeBelow (a b : Automaton) (n : Nat) : Prop :=
  ∀ q, q < n → q < a.size ∧ q < b.size ∧ ∀ w, a.acceptsFrom q w = b.acceptsFrom q w

namespace AgreeBelow

variable {n : Nat}

theorem symm (h : AgreeBelow a b n) : AgreeBelow b a n := fun q hq =>
  have ⟨ha, hb, heq⟩ := h q hq
  ⟨hb, ha, fun w => (heq w).symm⟩

/-- A step that leads below the number in one automaton leads to the same state in the other. -/
theorem step_eq (h : AgreeBelow a b n) (ha : a.Ordered) {q : Nat} (hq : q < n) {x : UInt8}
    (hlt : b.step q x < n) : a.step q x = b.step q x := by
  obtain ⟨hqa, -, hqw⟩ := h q hq
  obtain ⟨hsa, -, hsw⟩ := h _ hlt
  refine ha.reduced _ _ (ha.step_lt hqa x) hsa fun w => ?_
  calc a.acceptsFrom (a.step q x) w = b.acceptsFrom (b.step q x) w := hqw (x :: w)
    _ = a.acceptsFrom (b.step q x) w := (hsw w).symm

/-- Where the next state is met, the other automaton is not at an earlier one. -/
theorem le_step (h : AgreeBelow a b n) (ha : a.Ordered) {q : Nat} {x : UInt8}
    (hfirst : a.FirstMet n q x) : n ≤ b.step q x := by
  by_contra hlt
  have heq := h.step_eq ha hfirst.lt (Nat.not_le.1 hlt)
  exact hlt (Nat.le_of_eq (hfirst.step_eq.symm.trans heq))

/-- **The next state** of either automaton is met at the same place. -/
theorem succ (h : AgreeBelow a b n) (ha : a.Ordered) (hb : b.Ordered) (hpos : 0 < n)
    (hn : n < a.size) : AgreeBelow a b (n + 1) := by
  obtain ⟨q, x, hfirst⟩ := ha.breadthFirst n hpos hn
  have hge := h.le_step ha hfirst
  have hnb : n < b.size := Nat.lt_of_le_of_lt hge (hb.step_lt (h q hfirst.lt).2.1 x)
  obtain ⟨q', x', hfirst'⟩ := hb.breadthFirst n hpos hnb
  have hge' := h.symm.le_step hb hfirst'
  -- neither place comes before the other one
  obtain rfl : q = q' := Nat.le_antisymm (hfirst.state_le hge') (hfirst'.state_le hge)
  obtain rfl : x = x' := UInt8.le_antisymm (hfirst.byte_le hge') (hfirst'.byte_le hge)
  intro r hr
  rcases Nat.lt_or_eq_of_le (Nat.le_of_lt_succ hr) with hlt | rfl
  · exact h r hlt
  · refine ⟨hn, hnb, fun w => ?_⟩
    have hqw := (h q hfirst.lt).2.2 (x :: w)
    rwa [acceptsFrom_cons, acceptsFrom_cons, hfirst.step_eq, hfirst'.step_eq] at hqw

end AgreeBelow

/-- **All states agree** in automata of one language that are reduced and numbered breadth first. -/
theorem Ordered.agreeBelow_size (ha : a.Ordered) (hb : b.Ordered)
    (h : ∀ w, a.acceptsBytes w = b.acceptsBytes w) : AgreeBelow a b a.size := by
  have below : ∀ n, n ≤ a.size → AgreeBelow a b n := by
    intro n hn
    induction n with
    | zero => exact fun q hq => absurd hq (Nat.not_lt_zero q)
    | succ n ih =>
      rcases Nat.eq_zero_or_pos n with rfl | hpos
      · intro q hq
        obtain rfl := Nat.lt_one_iff.1 hq
        exact ⟨ha.size_pos, hb.size_pos, h⟩
      · exact (ih (Nat.le_of_lt hn)).succ ha hb hpos hn
  exact below a.size (Nat.le_refl _)

end Automaton
end RouteSolver
