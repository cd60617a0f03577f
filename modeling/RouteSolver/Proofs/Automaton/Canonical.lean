/-
# The minimal automaton depends on the language alone

Three things fix the minimal automaton of a language: its states are the classes of byte strings
with the same continuations, they are numbered breadth first, and bytes are one letter if no state
tells them apart (`LettersApart`). So complete automata of one language have the same minimal
automaton, table for table (`Complete.minimize_eq`), whether or not all of their states can be
reached.

Both loops of minimization end by themselves: `Minimizes` is what they come to without a bound.
-/

import RouteSolver.Proofs.Automaton.BreadthFirst

namespace RouteSolver
namespace Automaton

variable {a b : Automaton}

/-! ### Letters -/

/-- Bytes of different letters lead to different states, from some state. -/
def LettersApart (a : Automaton) : Prop := ∀ x y, (∀ q, q < a.size → a.step q x = a.step q y) →
  a.alphabet.letter x = a.alphabet.letter y

/-- Bytes are one letter exactly if no state tells them apart. -/
theorem LettersApart.letter_eq_iff (h : a.LettersApart) (x y : UInt8) :
    a.alphabet.letter x = a.alphabet.letter y ↔ ∀ q, q < a.size → a.step q x = a.step q y :=
  ⟨fun heq q _ => a.step_eq_of_letter_eq q heq, h x y⟩

/-- **Joined letters** are apart. -/
theorem Complete.lettersApart_mergeLetters (h : a.Complete) : a.mergeLetters.LettersApart := by
  intro x y hxy
  rw [h.letter_mergeLetters, h.letter_mergeLetters, a.numbering_column.code_eq_iff
    (List.getElem?_range (h.alphabet.letter_lt x)) (List.getElem?_range (h.alphabet.letter_lt y)),
    column, column]
  refine List.map_congr_left fun row hrow => ?_
  obtain ⟨q, hq, rfl⟩ := List.mem_iff_getElem.1 hrow
  have hsize : q < a.size := h.size_rows ▸ (Array.length_toList ▸ hq)
  have hq' : a.rows[q]? = some a.rows.toList[q] := by
    rw [← Array.getElem?_toList, List.getElem?_eq_getElem hq]
  have hstep := hxy q hsize
  rw [h.step_mergeLetters hsize, h.step_mergeLetters hsize] at hstep
  rw [Array.getD_eq_getD_getElem?, Array.getD_eq_getD_getElem?, h.getElem?_row hq',
    h.getElem?_row hq', hstep]

theorem Complete.lettersApart_minimize (h : a.Complete) : a.minimize.LettersApart :=
  h.explorable_classes.valid_explore.lettersApart_mergeLetters

/-! ### Tables -/

/-- **A table is told** by its letters, by which states accept and by where steps lead. -/
theorem Complete.ext (ha : a.Complete) (hb : b.Complete) (halphabet : a.alphabet = b.alphabet)
    (hsize : a.size = b.size) (haccept : ∀ q, q < a.size → a.isAccepting q = b.isAccepting q)
    (hstep : ∀ q x, q < a.size → a.step q x = b.step q x) : a = b := by
  have haccepting : a.accepting = b.accepting := by
    refine Array.ext hsize fun q hq hq' => ?_
    have heq := haccept q hq
    rwa [isAccepting, isAccepting, Array.getD_eq_getD_getElem?, Array.getD_eq_getD_getElem?,
      Array.getElem?_eq_getElem hq, Array.getElem?_eq_getElem hq', Option.getD_some,
      Option.getD_some] at heq
  have hrows : a.rows = b.rows := by
    refine Array.ext (ha.size_rows.trans (hsize.trans hb.size_rows.symm)) fun q hq hq' => ?_
    have hrow := Array.getElem?_eq_getElem hq
    have hrow' := Array.getElem?_eq_getElem hq'
    refine Array.ext ?_ fun c hc hc' => ?_
    · rw [ha.size_row q _ hrow, hb.size_row q _ hrow', halphabet]
    · have hcr : c < a.alphabet.representatives.size := ha.size_row q _ hrow ▸ hc
      -- the entry for a letter is the step for the byte that represents it
      have hr := Array.getElem?_eq_getElem hcr
      have hca := ha.getElem?_row hrow a.alphabet.representatives[c]
      have hcb := hb.getElem?_row hrow' a.alphabet.representatives[c]
      rw [← halphabet] at hcb
      rw [ha.alphabet.letter_representative c _ hr, Array.getElem?_eq_getElem hc,
        Option.some.injEq] at hca
      rw [ha.alphabet.letter_representative c _ hr, Array.getElem?_eq_getElem hc',
        Option.some.injEq] at hcb
      rw [hca, hcb, hstep q _ (ha.size_rows ▸ hq)]
  cases a
  cases b
  simp only [Automaton.mk.injEq]
  exact ⟨halphabet, haccepting, hrows⟩

/-- **An automaton is told by its language** if it is reduced, numbered breadth first and has no
letters that could be joined. -/
theorem Ordered.eq_of_acceptsBytes_eq (ha : a.Ordered) (hb : b.Ordered) (hla : a.LettersApart)
    (hlb : b.LettersApart) (h : ∀ w, a.acceptsBytes w = b.acceptsBytes w) : a = b := by
  have hagree := ha.agreeBelow_size hb h
  have hagree' := hb.agreeBelow_size ha fun w => (h w).symm
  have hsize : a.size = b.size := by
    refine Nat.le_antisymm (Nat.not_lt.1 fun hlt => ?_) (Nat.not_lt.1 fun hlt => ?_)
    · exact Nat.lt_irrefl _ (hagree b.size hlt).2.1
    · exact Nat.lt_irrefl _ (hagree' a.size hlt).2.1
  have hstep : ∀ q x, q < a.size → a.step q x = b.step q x := fun q x hq =>
    hagree.step_eq ha hq (hsize ▸ hb.step_lt (hsize ▸ hq) x)
  have halphabet : a.alphabet = b.alphabet := by
    refine ha.alphabet.eq_of_letter_eq_iff hb.alphabet fun x y => ?_
    rw [hla.letter_eq_iff, hlb.letter_eq_iff, ← hsize]
    exact forall₂_congr fun q hq => by rw [hstep q x hq, hstep q y hq]
  exact ha.toComplete.ext hb.toComplete halphabet hsize (fun q hq => (hagree q hq).2.2 []) hstep

/-- **Automata of one language** have one minimal automaton. -/
theorem Complete.minimize_eq (ha : a.Complete) (hb : b.Complete)
    (h : ∀ w, a.acceptsBytes w = b.acceptsBytes w) : a.minimize = b.minimize :=
  ha.ordered_minimize.eq_of_acceptsBytes_eq hb.ordered_minimize ha.lettersApart_minimize
    hb.lettersApart_minimize fun w => by
      rw [ha.acceptsBytes_minimize, hb.acceptsBytes_minimize, h w]

/-! ### Minimization -/

/-- Minimizing without bounds comes to the automaton: refining, from the partition into accepting
and other states, until the number of classes stands still, then walking over the classes until
there are no new ones, and joining letters. -/
def Minimizes (a m : Automaton) : Prop :=
  ∃ classes t, a.Stabilizes (number a.isAccepting (List.range a.size)).firsts.size
      (number a.isAccepting (List.range a.size)).codes classes ∧
    Explores a.alphabet (classes.getD · 0) a.step a.isAccepting 0 t ∧ m = t.mergeLetters

/-- **Minimizing ends by itself**: without bounds it comes to the same automaton. -/
theorem Complete.minimizes_iff (h : a.Complete) (m : Automaton) :
    a.Minimizes m ↔ m = a.minimize := by
  constructor
  · rintro ⟨classes, t, hclasses, ht, rfl⟩
    obtain rfl := h.stabilizes_classes.unique hclasses
    rw [(h.explorable_classes.explores_iff t).1 ht, minimize]
  · rintro rfl
    exact ⟨a.classes, _, h.stabilizes_classes, (h.explorable_classes.explores_iff _).2 rfl, rfl⟩

/-- **Minimizing is canonical.** It ends without any bound, and the automaton that it comes to has
the language of the one that it began with, of which only a complete table is asked. All states of
the result can be reached, and any two of them are told apart by some byte string. Every other
complete automaton of the same language is minimized to the same table. So an automaton that can be
made has as many states as there are classes of byte strings with the same continuations. -/
theorem Complete.minimize_canonical (h : a.Complete) :
    (∀ m, a.Minimizes m ↔ m = a.minimize) ∧
    (∀ w, a.minimize.acceptsBytes w = a.acceptsBytes w) ∧
    (∀ q, q < a.minimize.size → ∃ w, a.minimize.run w = q) ∧
    (∀ q r, q < a.minimize.size → r < a.minimize.size → q ≠ r →
      ∃ w, a.minimize.acceptsFrom q w ≠ a.minimize.acceptsFrom r w) ∧
    (∀ b : Automaton, b.Complete → (∀ w, a.acceptsBytes w = b.acceptsBytes w) →
      a.minimize = b.minimize) ∧
    (a.Constructed → a.size = (Set.range a.language.leftQuotient).ncard) := by
  refine ⟨h.minimizes_iff, h.acceptsBytes_minimize, h.valid_minimize.exists_run_eq,
    fun q r hq hr hne => ?_, fun b hb => h.minimize_eq hb,
    fun hmade => hmade.valid.size_eq_ncard_leftQuotient hmade.reduced⟩
  exact not_forall.1 fun hsame => hne (h.reduced_minimize q r hq hr hsame)

/-- Byte strings of even length. -/
def evenLength : Automaton := ⟨.unit, #[true, false], #[#[1], #[0]]⟩

/-- The same language: the length is counted modulo four, and a state is never reached. -/
def evenLengthByFour : Automaton :=
  ⟨.unit, #[true, false, true, false, true], #[#[1], #[2], #[3], #[0], #[4]]⟩

theorem complete_evenLength : evenLength.Complete :=
  complete_unit (by decide) rfl (by decide) (by decide)

theorem complete_evenLengthByFour : evenLengthByFour.Complete :=
  complete_unit (by decide) rfl (by decide) (by decide)

/-- States that are gone through in a circle count the bytes. -/
theorem run_eq_mod {n : Nat} (hn : 0 < n) (hstep : ∀ q, q < n → ∀ x, a.step q x = (q + 1) % n)
    (w : List UInt8) : a.run w = w.length % n := by
  induction w using List.reverseRecOn with
  | nil => exact (Nat.zero_mod n).symm
  | append_singleton w x ih =>
    rw [run_concat, ih, hstep _ (Nat.mod_lt _ hn), List.length_append, List.length_singleton,
      Nat.mod_add_mod]

theorem run_evenLength (w : List UInt8) : evenLength.run w = w.length % 2 :=
  run_eq_mod (by decide) (fun q hq x => by rw [evenLength, step_unit]; decide +revert) w

theorem run_evenLengthByFour (w : List UInt8) : evenLengthByFour.run w = w.length % 4 :=
  run_eq_mod (by decide) (fun q hq x => by rw [evenLengthByFour, step_unit]; decide +revert) w

/-- Both ways of counting accept alike. -/
theorem acceptsBytes_evenLength (w : List UInt8) :
    evenLength.acceptsBytes w = evenLengthByFour.acceptsBytes w := by
  have haccept : ∀ n, n < 4 →
      evenLength.isAccepting (n % 2) = evenLengthByFour.isAccepting n := by decide
  have hfour := haccept (w.length % 4) (Nat.mod_lt _ (by decide))
  rwa [Nat.mod_mod_of_dvd _ (by decide), ← run_evenLength, ← run_evenLengthByFour] at hfour

/-- Counting modulo four is minimized to the same table as counting modulo two, and the automaton of
a text of two bytes has a state for each of the four classes. -/
theorem minimize_canonical_evenLength :
    evenLength.Complete ∧ evenLengthByFour.Complete ∧
      (∀ w, evenLength.acceptsBytes w = evenLengthByFour.acceptsBytes w) ∧
      evenLength.minimize = evenLengthByFour.minimize ∧
      (ofText "ab").Complete ∧ (ofText "ab").Constructed ∧
      4 = (Set.range (ofText "ab").language.leftQuotient).ncard := by
  obtain ⟨-, -, -, -, hsame, -⟩ := complete_evenLength.minimize_canonical
  have hmade : (ofText "ab").Constructed := .ofText _
  obtain ⟨-, -, -, -, -, hcount⟩ := hmade.valid.toComplete.minimize_canonical
  refine ⟨complete_evenLength, complete_evenLengthByFour, acceptsBytes_evenLength,
    hsame _ complete_evenLengthByFour acceptsBytes_evenLength, hmade.valid.toComplete, hmade, ?_⟩
  have hsize : (ofText "ab").size = 4 := by
    rw [ofText, size_ofBytes]
    decide
  exact hsize.symm.trans (hcount hmade)

end Automaton
end RouteSolver
