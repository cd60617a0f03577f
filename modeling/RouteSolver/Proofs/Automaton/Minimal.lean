/-
# Minimizing keeps the language

Refining a partition of the states never loses a class, and when it gains none the partition stands
still (`Classing.le_of_finer`). As there are no more classes than states, refining comes to an end
by itself (`Complete.stabilizes`), and the classes there are a congruence (`Stabilizes.congruence`):
states of one class accept alike and step alike. Dividing by it, and joining letters whose columns
agree, keeps every run (`Complete.acceptsBytes_minimize`). All of this asks of a table that it is
complete; that its states can be reached is not needed.
-/

import RouteSolver.Automaton.Minimal
import RouteSolver.Proofs.Automaton.Exploring
import Mathlib.Data.Fintype.EquivFin

namespace RouteSolver
namespace Automaton

/-! ### Partitions of the states -/

/-- The states below `n` are divided into `count` classes, none of them empty. -/
structure Classing (n : Nat) (classOf : Nat → Nat) (count : Nat) : Prop where
  lt : ∀ q, q < n → classOf q < count
  exists_eq : ∀ c, c < count → ∃ q, q < n ∧ classOf q = c

namespace Classing

variable {n count count' : Nat} {f g : Nat → Nat}

/-- A finer partition has at least as many classes, and is the same one if it has no more. -/
theorem le_of_finer (hf : Classing n f count) (hg : Classing n g count')
    (hfiner : ∀ q r, q < n → r < n → g q = g r → f q = f r) :
    count ≤ count' ∧ (count = count' → ∀ q r, q < n → r < n → f q = f r → g q = g r) := by
  choose state hlt hstate using hg.exists_eq
  let coarsen : Fin count' → Fin count := fun c => ⟨f (state c c.isLt), hf.lt _ (hlt c c.isLt)⟩
  have hcoarsen : ∀ q (hq : q < n), coarsen ⟨g q, hg.lt q hq⟩ = ⟨f q, hf.lt q hq⟩ := fun q hq =>
    Fin.ext (hfiner _ q (hlt _ (hg.lt q hq)) hq (hstate _ (hg.lt q hq)))
  have hsurj : Function.Surjective coarsen := by
    rintro ⟨c, hc⟩
    obtain ⟨q, hq, rfl⟩ := hf.exists_eq c hc
    exact ⟨_, hcoarsen q hq⟩
  refine ⟨?_, ?_⟩
  · have := Fintype.card_le_of_surjective coarsen hsurj
    rwa [Fintype.card_fin, Fintype.card_fin] at this
  · rintro rfl q r hq hr hqr
    have hinj := Finite.injective_iff_surjective.2 hsurj
    have heq : coarsen ⟨g q, hg.lt q hq⟩ = coarsen ⟨g r, hg.lt r hr⟩ := by
      rw [hcoarsen q hq, hcoarsen r hr]
      exact Fin.ext hqr
    exact congrArg Fin.val (hinj heq)

theorem count_le (h : Classing n f count) : count ≤ n := by
  have hid : Classing n id n := ⟨fun _ h => h, fun c hc => ⟨c, hc, rfl⟩⟩
  exact (h.le_of_finer hid fun q r _ _ hqr => congrArg f hqr).1

end Classing

section
variable {κ : Type} [BEq κ] [LawfulBEq κ] [Hashable κ] (key : Nat → κ) (n : Nat)

/-- Numbering the states by key divides them into classes. -/
theorem classing_number : Classing n ((number key (List.range n)).codes.getD · 0)
    (number key (List.range n)).firsts.size := by
  have h := numbering_number key (List.range n)
  refine ⟨fun q hq => h.code_lt (List.getElem?_range hq), fun c hc => ?_⟩
  have hfirst := Array.getElem?_eq_getElem hc
  have hmem := List.mem_range.1 (h.mem_of_first hfirst)
  exact ⟨_, hmem, h.code_first hfirst (List.getElem?_range hmem)⟩

theorem code_range_eq_iff {q r : Nat} (hq : q < n) (hr : r < n) :
    (number key (List.range n)).codes.getD q 0 = (number key (List.range n)).codes.getD r 0 ↔
      key q = key r :=
  (numbering_number key (List.range n)).code_eq_iff (List.getElem?_range hq)
    (List.getElem?_range hr)

end

/-! ### The classes of an automaton -/

variable {a : Automaton}

/-- States of one class accept alike and step alike. -/
structure Congruence (a : Automaton) (classes : Array Nat) : Prop where
  classing : ∃ count, Classing a.size (classes.getD · 0) count
  accept : ∀ q r, q < a.size → r < a.size → classes.getD q 0 = classes.getD r 0 →
    a.isAccepting q = a.isAccepting r
  step : ∀ q r b, q < a.size → r < a.size → classes.getD q 0 = classes.getD r 0 →
    classes.getD (a.step q b) 0 = classes.getD (a.step r b) 0

/-- **States of one signature** are of one class, and so are their successors. -/
theorem Complete.signature_eq_iff (h : a.Complete) {classes : Array Nat} {q r : Nat}
    (hq : q < a.size) (hr : r < a.size) :
    a.signature classes q = a.signature classes r ↔ classes.getD q 0 = classes.getD r 0 ∧
      ∀ b, classes.getD (a.step q b) 0 = classes.getD (a.step r b) 0 := by
  have hentry : ∀ {q : Nat}, q < a.size → ∀ b,
      ((a.rows.getD q #[]).toList.map (classes.getD · 0))[a.alphabet.letter b]? =
        some (classes.getD (a.step q b) 0) := by
    intro q hq b
    obtain ⟨row, hrow⟩ := h.exists_row hq
    rw [Array.getD_eq_getD_getElem?, hrow, Option.getD_some, List.getElem?_map,
      Array.getElem?_toList, h.getElem?_row hrow b, Option.map_some]
  have hlen : ∀ {q : Nat}, q < a.size →
      ((a.rows.getD q #[]).toList.map (classes.getD · 0)).length =
        a.alphabet.representatives.size := by
    intro q hq
    obtain ⟨row, hrow⟩ := h.exists_row hq
    rw [Array.getD_eq_getD_getElem?, hrow, Option.getD_some, List.length_map, Array.length_toList,
      h.size_row q row hrow]
  rw [signature, signature, List.cons.injEq]
  refine and_congr_right fun _ => ⟨fun heq b => ?_, fun heq => List.ext_getElem? fun c => ?_⟩
  · exact Option.some.inj ((hentry hq b).symm.trans
      ((congrArg (·[a.alphabet.letter b]?) heq).trans (hentry hr b)))
  · rcases Nat.lt_or_ge c a.alphabet.representatives.size with hc | hc
    · -- the letter is that of its representative
      have hletter := h.alphabet.letter_representative c _ (Array.getElem?_eq_getElem hc)
      rw [← hletter, hentry hq, hentry hr, heq]
    · rw [List.getElem?_eq_none (hlen hq ▸ hc), List.getElem?_eq_none (hlen hr ▸ hc)]

/-- **One round of refinement** divides the classes by those of the successors. It loses no class,
and if it gains none the classes stay what they are. -/
theorem Complete.refine_spec (h : a.Complete) {count : Nat} {classes : Array Nat}
    (hclasses : Classing a.size (classes.getD · 0) count) :
    Classing a.size ((a.refine classes).codes.getD · 0) (a.refine classes).firsts.size ∧
      (∀ q r, q < a.size → r < a.size →
        ((a.refine classes).codes.getD q 0 = (a.refine classes).codes.getD r 0 ↔
          classes.getD q 0 = classes.getD r 0 ∧
            ∀ b, classes.getD (a.step q b) 0 = classes.getD (a.step r b) 0)) ∧
      count ≤ (a.refine classes).firsts.size ∧
      ((a.refine classes).firsts.size = count → ∀ q r, q < a.size → r < a.size →
        classes.getD q 0 = classes.getD r 0 →
          (a.refine classes).codes.getD q 0 = (a.refine classes).codes.getD r 0) := by
  have hrefined := classing_number (a.signature classes) a.size
  have hcode : ∀ q r, q < a.size → r < a.size →
      ((a.refine classes).codes.getD q 0 = (a.refine classes).codes.getD r 0 ↔
        classes.getD q 0 = classes.getD r 0 ∧
          ∀ b, classes.getD (a.step q b) 0 = classes.getD (a.step r b) 0) := fun q r hq hr =>
    (code_range_eq_iff (a.signature classes) a.size hq hr).trans (h.signature_eq_iff hq hr)
  obtain ⟨hle, hsame⟩ := hclasses.le_of_finer hrefined fun q r hq hr heq =>
    ((hcode q r hq hr).1 heq).1
  exact ⟨hrefined, hcode, hle, fun hcount => hsame hcount.symm⟩

/-- Refining without a bound until the number of classes stands still. -/
inductive Stabilizes (a : Automaton) : Nat → Array Nat → Array Nat → Prop
  | stop {count : Nat} {classes : Array Nat} (h : (a.refine classes).firsts.size = count) :
    Stabilizes a count classes (a.refine classes).codes
  | more {count : Nat} {classes last : Array Nat} (h : (a.refine classes).firsts.size ≠ count)
    (hmore : Stabilizes a (a.refine classes).firsts.size (a.refine classes).codes last) :
    Stabilizes a count classes last

theorem Stabilizes.unique {count : Nat} {classes last last' : Array Nat}
    (h : a.Stabilizes count classes last) (h' : a.Stabilizes count classes last') :
    last = last' := by
  induction h with
  | stop hcount =>
    cases h' with
    | stop => rfl
    | more hne => exact absurd hcount hne
  | more hne _ ih =>
    cases h' with
    | stop hcount => exact absurd hcount hne
    | more _ hmore => exact ih hmore

/-- **The partition stands still** before the bound is used up. -/
theorem Complete.stabilizes (h : a.Complete) (bound : Nat) {count : Nat} {classes : Array Nat}
    (hbound : a.size < bound + count) (hclasses : Classing a.size (classes.getD · 0) count) :
    a.Stabilizes count classes (a.stabilize bound count classes) := by
  induction bound generalizing count classes with
  | zero =>
    have := hclasses.count_le
    omega
  | succ bound ih =>
    obtain ⟨hrefined, -, hle, -⟩ := h.refine_spec hclasses
    rw [stabilize]
    split
    · rename_i hcount
      exact .stop hcount
    · rename_i hcount
      have hlt : count < (a.refine classes).firsts.size := Nat.lt_of_le_of_ne hle (Ne.symm hcount)
      exact .more hcount (ih (by omega) hrefined)

/-- **A partition that stands still** is a congruence. -/
theorem Stabilizes.congruence (h : a.Complete) {count : Nat} {classes last : Array Nat}
    (hlast : a.Stabilizes count classes last) (hclasses : Classing a.size (classes.getD · 0) count)
    (haccept : ∀ q r, q < a.size → r < a.size → classes.getD q 0 = classes.getD r 0 →
      a.isAccepting q = a.isAccepting r) : a.Congruence last := by
  induction hlast with
  | stop hcount =>
    obtain ⟨hrefined, hcode, -, hsame⟩ := h.refine_spec hclasses
    exact {
      classing := ⟨_, hrefined⟩
      accept := fun q r hq hr heq => haccept q r hq hr ((hcode q r hq hr).1 heq).1
      step := fun q r b hq hr heq => hsame hcount _ _ (h.step_lt hq b) (h.step_lt hr b)
        (((hcode q r hq hr).1 heq).2 b) }
  | more _ _ ih =>
    obtain ⟨hrefined, hcode, -, -⟩ := h.refine_spec hclasses
    exact ih hrefined fun q r hq hr heq => haccept q r hq hr ((hcode q r hq hr).1 heq).1

/-- At first there are the accepting states and the others. -/
theorem classing_isAccepting (a : Automaton) :
    Classing a.size ((number a.isAccepting (List.range a.size)).codes.getD · 0)
      (number a.isAccepting (List.range a.size)).firsts.size :=
  classing_number a.isAccepting a.size

theorem Complete.stabilizes_classes (h : a.Complete) :
    a.Stabilizes (number a.isAccepting (List.range a.size)).firsts.size
      (number a.isAccepting (List.range a.size)).codes a.classes :=
  h.stabilizes _ (by omega) a.classing_isAccepting

theorem Complete.congruence_classes (h : a.Complete) : a.Congruence a.classes :=
  h.stabilizes_classes.congruence h a.classing_isAccepting fun _ _ hq hr heq =>
    (code_range_eq_iff a.isAccepting a.size hq hr).1 heq

/-- **Classes can be explored** in place of states. -/
theorem Complete.explorable_classes (h : a.Complete) :
    Explorable a.alphabet (a.classes.getD · 0) a.step a.isAccepting a.size 0 (· < a.size) := by
  have hc := h.congruence_classes
  obtain ⟨count, hcount⟩ := hc.classing
  exact {
    valid_alphabet := h.alphabet
    inv_start := h.size_pos
    inv_next := fun q b hq => h.step_lt hq b
    key_next := fun q r b hq hr heq => hc.step q r b hq hr heq
    key_letter := fun q b c _ hletter => by rw [a.step_eq_of_letter_eq q hletter]
    accept_eq := fun q r hq hr heq => hc.accept q r hq hr heq
    bounded := ⟨id, fun q hq => Nat.lt_of_lt_of_le (hcount.lt q hq) hcount.count_le,
      fun _ _ _ _ heq => heq⟩ }

/-! ### Joining letters -/

section
variable (a)

/-- The numbering of the letters by their columns. -/
theorem numbering_column :
    Numbering a.column (List.range a.alphabet.representatives.size)
      (number a.column (List.range a.alphabet.representatives.size)) :=
  numbering_number _ _

end

theorem Complete.letter_mergeLetters (h : a.Complete) (b : UInt8) :
    a.mergeLetters.alphabet.letter b =
      (number a.column (List.range a.alphabet.representatives.size)).codes.getD
        (a.alphabet.letter b) 0 := by
  have hlt : b.toNat < a.alphabet.letterOf.size := h.alphabet.size_letterOf.symm ▸ b.toNat_lt
  rw [mergeLetters, Alphabet.letter, Alphabet.letter, Array.getD_eq_getD_getElem?,
    Array.getElem?_map, Array.getD_eq_getD_getElem? (i := b.toNat), Array.getElem?_eq_getElem hlt]
  rfl

/-- What is known of the first letter with the column of a letter. -/
theorem Complete.exists_first_letter (h : a.Complete) (b : UInt8) :
    ∃ c, (number a.column (List.range a.alphabet.representatives.size)).firsts[
        a.mergeLetters.alphabet.letter b]? = some c ∧
      c ≤ a.alphabet.letter b ∧ c < a.alphabet.representatives.size ∧
      a.column c = a.column (a.alphabet.letter b) := by
  have hlt := h.alphabet.letter_lt b
  obtain ⟨j, c, hc, hcol, hj, hjc⟩ := a.numbering_column.exists_first (List.getElem?_range hlt)
  rw [List.getElem?_range (Nat.lt_of_le_of_lt hj hlt), Option.some.injEq] at hjc
  subst hjc
  rw [h.letter_mergeLetters]
  exact ⟨j, hc, hj, Nat.lt_of_le_of_lt hj hlt, hcol⟩

/-- **Joined letters lead where they led.** -/
theorem Complete.step_mergeLetters (h : a.Complete) {q : Nat} (hq : q < a.size) (b : UInt8) :
    a.mergeLetters.step q b = a.step q b := by
  obtain ⟨c, hc, -, -, hcol⟩ := h.exists_first_letter b
  obtain ⟨row, hrow⟩ := h.exists_row hq
  have hcell : row.getD c 0 = row.getD (a.alphabet.letter b) 0 := by
    have hq := congrArg (·[q]?) hcol
    simpa only [column, List.getElem?_map, Array.getElem?_toList, hrow, Option.map_some,
      Option.some.injEq] using hq
  rw [step, step]
  generalize hletter : a.mergeLetters.alphabet.letter b = letter at hc
  rw [mergeLetters]
  simp only [Array.getD_eq_getD_getElem?, Array.getElem?_map, hrow, hc, Option.map_some,
    Option.getD_some] at hcell ⊢
  exact hcell

theorem Complete.run_mergeLetters (h : a.Complete) (w : List UInt8) :
    a.mergeLetters.run w = a.run w := by
  induction w using List.reverseRecOn with
  | nil => rfl
  | append_singleton w b ih => rw [run_concat, run_concat, ih, h.step_mergeLetters (h.run_lt w)]

/-- The joined alphabet is well formed. -/
theorem Complete.alphabet_mergeLetters (h : a.Complete) : a.mergeLetters.alphabet.Valid := by
  have hn := a.numbering_column
  set n := number a.column (List.range a.alphabet.representatives.size) with hdef
  have hrep : a.mergeLetters.alphabet.representatives =
      n.firsts.map (a.alphabet.representatives.getD · 0) := rfl
  have hget : ∀ {c : Nat} {b : UInt8}, a.alphabet.representatives[c]? = some b →
      a.alphabet.representatives.getD c 0 = b := fun hc => by
    rw [Array.getD_eq_getD_getElem?, hc, Option.getD_some]
  have hsorted : ∀ {c d : Nat} (hd : d < a.alphabet.representatives.size), c ≤ d →
      a.alphabet.representatives.getD c 0 ≤ a.alphabet.representatives.getD d 0 := by
    intro c d hd hcd
    rcases Nat.lt_or_eq_of_le hcd with hlt | rfl
    · have hrc := Array.getElem?_eq_getElem (Nat.lt_trans hlt hd)
      have hrd := Array.getElem?_eq_getElem hd
      rw [hget hrc, hget hrd]
      exact UInt8.le_of_lt (h.alphabet.lt_of_lt hrc hrd hlt)
    · exact UInt8.le_refl _
  refine {
    size_letterOf := Array.size_map.trans h.alphabet.size_letterOf
    exists_representative := fun b => ?_
    letter_representative := fun d r hr => ?_
    ascending := ?_ }
  · obtain ⟨c, hc, hle, -, -⟩ := h.exists_first_letter b
    obtain ⟨r, hr, hrb⟩ := h.alphabet.exists_representative b
    refine ⟨a.alphabet.representatives.getD c 0, ?_, ?_⟩
    · rw [hrep, Array.getElem?_map, hc, Option.map_some]
    · exact UInt8.le_trans (hsorted (h.alphabet.letter_lt b) hle) (hget hr ▸ hrb)
  · rw [hrep, Array.getElem?_map, Option.map_eq_some_iff] at hr
    obtain ⟨c, hc, rfl⟩ := hr
    have hlt := List.mem_range.1 (hn.mem_of_first hc)
    have hletter := h.alphabet.letter_representative c _ (Array.getElem?_eq_getElem hlt)
    rw [h.letter_mergeLetters, hget (Array.getElem?_eq_getElem hlt), hletter]
    exact hn.code_first hc (List.getElem?_range hlt)
  · rw [hrep, Array.toList_map, List.pairwise_map]
    have hsub : n.firsts.toList.Pairwise (· < ·) := List.pairwise_lt_range.sublist hn.firsts_sublist
    refine hsub.imp_of_mem fun {c d} _ hd hcd => ?_
    have hd' := List.mem_range.1 (hn.firsts_sublist.mem hd)
    have hc' := Nat.lt_trans hcd hd'
    rw [hget (Array.getElem?_eq_getElem hd'), hget (Array.getElem?_eq_getElem hc')]
    exact List.pairwise_iff_getElem.1 h.alphabet.ascending c d (Array.length_toList ▸ hc')
      (Array.length_toList ▸ hd') hcd

theorem Valid.mergeLetters (h : a.Valid) : a.mergeLetters.Valid := by
  have hn := a.numbering_column
  set n := number a.column (List.range a.alphabet.representatives.size) with hdef
  have hrows : a.mergeLetters.rows = a.rows.map fun row => n.firsts.map (row.getD · 0) := rfl
  refine {
    alphabet := h.alphabet_mergeLetters
    size_pos := h.size_pos
    size_rows := Array.size_map.trans h.size_rows
    size_row := fun q row hrow => ?_
    target_lt := fun q row hrow t ht => ?_
    exists_run_eq := fun q hq => ?_ }
  · rw [hrows, Array.getElem?_map, Option.map_eq_some_iff] at hrow
    obtain ⟨old, -, rfl⟩ := hrow
    exact Array.size_map.trans Array.size_map.symm
  · rw [hrows, Array.getElem?_map, Option.map_eq_some_iff] at hrow
    obtain ⟨old, hold, rfl⟩ := hrow
    rw [Array.toList_map, List.mem_map] at ht
    obtain ⟨c, hc, rfl⟩ := ht
    have hlt : c < old.size :=
      (h.size_row q old hold).symm ▸ List.mem_range.1 (hn.firsts_sublist.mem hc)
    refine h.target_lt q old hold _ ?_
    rw [Array.getD_eq_getD_getElem?, Array.getElem?_eq_getElem hlt, Option.getD_some]
    exact Array.mem_toList_iff.2 (Array.getElem_mem hlt)
  · obtain ⟨w, hw⟩ := h.exists_run_eq q hq
    exact ⟨w, (h.run_mergeLetters w).trans hw⟩

/-! ### The minimal automaton -/

theorem Complete.valid_minimize (h : a.Complete) : a.minimize.Valid :=
  h.explorable_classes.valid_explore.mergeLetters

theorem Valid.minimize (h : a.Valid) : a.minimize.Valid := h.valid_minimize

/-- **Minimizing keeps the language.** -/
theorem Complete.acceptsBytes_minimize (h : a.Complete) (w : List UInt8) :
    a.minimize.acceptsBytes w = a.acceptsBytes w := by
  have hexp := h.explorable_classes
  rw [Automaton.minimize]
  rw [acceptsBytes, hexp.valid_explore.run_mergeLetters]
  exact hexp.acceptsBytes_explore w

end Automaton
end RouteSolver
