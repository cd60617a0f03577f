/-
# Exploring a machine

An automaton is well formed (`Automaton.Valid`) when its table is complete and every state can be
reached. `explore` makes well-formed automata (`Explorable.valid_explore`), and the automaton of a
machine ends where the machine does (`Explorable.acceptsBytes_explore`), provided that the keys of
the machine are a congruence: states with one key accept alike and step alike, and so do bytes of
one letter.

The invariant of the walk is `Explored`: every row that is written names the successors of its
state, and every state but the first stands in a row before it, where all that is written earlier
are smaller numbers (`FirstAt`). It is kept by one row (`successors_spec`, `Explored.step`), hence
by the whole walk (`Explored.rowsFrom`).

The walk has a bound, but it never comes to it: without one it writes the same rows (`Met.Walks`).
Its states are numbered by key, so two byte strings lead to one state of the automaton exactly if
they lead to states of the machine with one key (`Explorable.run_explore_eq_iff`).
-/

import RouteSolver.Automaton.Basic
import RouteSolver.Proofs.Automaton.Numbering
import RouteSolver.Proofs.Lists
import Mathlib.Data.List.Forall2
import Mathlib.Data.List.Induction
import Mathlib.Data.List.Nodup
import Mathlib.Data.List.Perm.Subperm

namespace RouteSolver
namespace Automaton

/-- The table is complete: there is a start state, and every state has a successor for every
letter. -/
structure Complete (a : Automaton) : Prop where
  alphabet : a.alphabet.Valid
  size_pos : 0 < a.size
  size_rows : a.rows.size = a.size
  size_row : ∀ (q : Nat) (row : Array Nat), a.rows[q]? = some row →
    row.size = a.alphabet.representatives.size
  target_lt : ∀ (q : Nat) (row : Array Nat), a.rows[q]? = some row → ∀ t ∈ row.toList, t < a.size

/-- The table is complete, and every state can be reached. -/
structure Valid (a : Automaton) : Prop extends Complete a where
  exists_run_eq : ∀ q, q < a.size → ∃ w, a.run w = q

theorem run_append (a : Automaton) (v w : List UInt8) :
    a.run (v ++ w) = w.foldl a.step (a.run v) := List.foldl_append

theorem run_concat (a : Automaton) (w : List UInt8) (b : UInt8) :
    a.run (w ++ [b]) = a.step (a.run w) b := run_append a w [b]

theorem step_eq_of_letter_eq (a : Automaton) (q : Nat) {b c : UInt8}
    (h : a.alphabet.letter b = a.alphabet.letter c) : a.step q b = a.step q c := by
  rw [step, step, h]

variable {a : Automaton}

namespace Complete

theorem exists_row (h : a.Complete) {q : Nat} (hq : q < a.size) : ∃ row, a.rows[q]? = some row :=
  ⟨_, Array.getElem?_eq_getElem (h.size_rows ▸ hq)⟩

/-- A row holds the successor for every byte. -/
theorem getElem?_row (h : a.Complete) {q : Nat} {row : Array Nat} (hrow : a.rows[q]? = some row)
    (b : UInt8) : row[a.alphabet.letter b]? = some (a.step q b) := by
  have hlt : a.alphabet.letter b < row.size := h.size_row q row hrow ▸ h.alphabet.letter_lt b
  have hq : a.rows.getD q #[] = row := by
    rw [Array.getD_eq_getD_getElem?, hrow, Option.getD_some]
  rw [step, hq, Array.getD_eq_getD_getElem?, Array.getElem?_eq_getElem hlt, Option.getD_some]

theorem step_lt (h : a.Complete) {q : Nat} (hq : q < a.size) (b : UInt8) : a.step q b < a.size := by
  obtain ⟨row, hrow⟩ := h.exists_row hq
  exact h.target_lt q row hrow _
    (Array.mem_toList_iff.2 (Array.mem_of_getElem? (h.getElem?_row hrow b)))

theorem run_lt (h : a.Complete) (w : List UInt8) : a.run w < a.size := by
  induction w using List.reverseRecOn with
  | nil => exact h.size_pos
  | append_singleton w b ih => exact run_concat a w b ▸ h.step_lt ih b

end Complete

/-- **A language is empty** exactly when no state accepts, because all states can be reached. -/
theorem Valid.isEmpty_iff (h : a.Valid) : a.isEmpty = true ↔ ∀ w, a.acceptsBytes w = false := by
  rw [isEmpty, Bool.not_eq_true', ← Bool.not_eq_true, Array.any_eq_true]
  constructor
  · intro hnone w
    have hlt := h.run_lt w
    refine Bool.eq_false_iff.2 fun hacc => hnone ⟨a.run w, hlt, ?_⟩
    rwa [acceptsBytes, isAccepting, Array.getD_eq_getD_getElem?, Array.getElem?_eq_getElem hlt,
      Option.getD_some] at hacc
  · rintro hall ⟨q, hq, hacc⟩
    obtain ⟨w, rfl⟩ := h.exists_run_eq q hq
    have hw := hall w
    rw [acceptsBytes, isAccepting, Array.getD_eq_getD_getElem?, Array.getElem?_eq_getElem hq,
      Option.getD_some] at hw
    exact Bool.noConfusion (hw.symm.trans hacc)

/-! ### The walk over a machine -/

section
variable {σ κ : Type} [BEq κ] [LawfulBEq κ] [Hashable κ] {key : σ → κ} {next : σ → UInt8 → σ}
  {inv : σ → Prop}

/-- The states met so far are numbered by key, and the invariant holds of them. -/
structure Met.Sound (key : σ → κ) (inv : σ → Prop) (met : Met σ κ) : Prop where
  indexes : Indexes key met.numbers met.states
  inv : ∀ (i : Nat) (s : σ), met.states[i]? = some s → inv s

/-- State number `i` has the key of `s`. -/
def Met.Knows (key : σ → κ) (met : Met σ κ) (i : Nat) (s : σ) : Prop :=
  ∃ u, met.states[i]? = some u ∧ key u = key s

/-- All states that have been met keep their numbers. -/
def Met.Grows (met later : Met σ κ) : Prop :=
  ∀ (i : Nat) (s : σ), met.states[i]? = some s → later.states[i]? = some s

namespace Met

variable {met later last : Met σ κ} {s : σ} {i : Nat}

omit [LawfulBEq κ] in
theorem Grows.refl (met : Met σ κ) : met.Grows met := fun _ _ h => h

omit [LawfulBEq κ] in
theorem Grows.trans (h : met.Grows later) (k : later.Grows last) : met.Grows last :=
  fun i s hs => k i s (h i s hs)

omit [LawfulBEq κ] in
theorem Knows.mono (h : met.Knows key i s) (hgrow : met.Grows later) : later.Knows key i s :=
  h.imp fun u hu => ⟨hgrow i u hu.1, hu.2⟩

omit [LawfulBEq κ] in
theorem Knows.lt (h : met.Knows key i s) : i < met.states.size := by
  obtain ⟨u, hu, -⟩ := h
  exact (Array.getElem?_eq_some_iff.1 hu).1

/-- **Visiting a state** gives it the number of its key, which is new only if the key is. -/
theorem visit_spec (hmet : met.Sound key inv) (hs : inv s) :
    (met.visit key s).2.Sound key inv ∧ met.Grows (met.visit key s).2 ∧
      (met.visit key s).2.Knows key (met.visit key s).1 s ∧
      ∀ c, met.states.size ≤ c → c < (met.visit key s).2.states.size → c = (met.visit key s).1 := by
  rw [visit]
  dsimp only
  split
  · rename_i i hi
    obtain ⟨u, hu⟩ := (hmet.indexes _ i).1 hi
    exact ⟨hmet, .refl met, ⟨u, hu⟩, fun c hle hlt => absurd hlt (Nat.not_lt.2 hle)⟩
  · rename_i hnone
    have hgrow : met.Grows ⟨met.numbers.insert (key s) met.states.size, met.states.push s⟩ :=
      fun i u => getElem?_push_of_eq_some
    refine ⟨⟨hmet.indexes.push hnone, fun i u hu => ?_⟩, hgrow,
      ⟨s, Array.getElem?_push_size, rfl⟩, fun c hle hlt => ?_⟩
    · rcases getElem?_push_eq_some_iff.1 hu with hu | ⟨-, rfl⟩
      · exact hmet.inv i u hu
      · exact hs
    · rw [Array.size_push] at hlt
      exact Nat.le_antisymm (Nat.le_of_lt_succ hlt) hle

/-- **One row** names the successors of its state for all letters, and every state that is met on
the way, in the order in which they are met. -/
theorem successors_spec (hnext : ∀ b, inv (next s b)) (bs : List UInt8) (row : Array Nat)
    (hmet : met.Sound key inv) :
    (met.successors key next s bs row).2.Sound key inv ∧
      met.Grows (met.successors key next s bs row).2 ∧
      ∃ ts, (met.successors key next s bs row).1.toList = row.toList ++ ts ∧
        List.Forall₂ (fun b t => (met.successors key next s bs row).2.Knows key t (next s b))
          bs ts ∧
        ∀ c, met.states.size ≤ c → c < (met.successors key next s bs row).2.states.size →
          ∃ k, ts[k]? = some c ∧ ∀ (j t : Nat), j < k → ts[j]? = some t → t < c := by
  induction bs generalizing row met with
  | nil =>
    exact ⟨hmet, .refl met, [], (List.append_nil _).symm, .nil,
      fun c hle hlt => absurd hlt (Nat.not_lt.2 hle)⟩
  | cons b bs ih =>
    rw [successors]
    obtain ⟨hmet', hgrow, hknows, hnew⟩ := visit_spec hmet (hnext b)
    obtain ⟨hlast, hgrow', ts, hts, hall, hmem⟩ := ih (row.push (met.visit key (next s b)).1) hmet'
    refine ⟨hlast, hgrow.trans hgrow', (met.visit key (next s b)).1 :: ts, ?_, .cons
      (hknows.mono hgrow') hall, fun c hle hlt => ?_⟩
    · rw [hts, Array.toList_push, List.append_assoc]
      rfl
    · by_cases hc : c < (met.visit key (next s b)).2.states.size
      · exact ⟨0, by rw [hnew c hle hc]; rfl, fun j t hj => absurd hj (Nat.not_lt_zero j)⟩
      · rw [Nat.not_lt] at hc
        obtain ⟨k, hk, hbefore⟩ := hmem c hc hlt
        refine ⟨k + 1, hk, fun j t hj ht => ?_⟩
        cases j with
        | zero => exact Option.some.inj ht ▸ Nat.lt_of_lt_of_le hknows.lt hc
        | succ j => exact hbefore j t (Nat.lt_of_succ_lt_succ hj) ht

end Met

/-- The number stands in row `i` at place `k`. All that is written before, in this row and in the
earlier ones, are smaller numbers. -/
structure FirstAt (rows : Array (Array Nat)) (c i k : Nat) : Prop where
  here : ∃ row, rows[i]? = some row ∧ row[k]? = some c ∧
    ∀ (j t : Nat), j < k → row[j]? = some t → t < c
  earlier : ∀ (j : Nat) (row : Array Nat), j < i → rows[j]? = some row → ∀ t ∈ row.toList, t < c

theorem FirstAt.push {rows : Array (Array Nat)} {c i k : Nat} (h : FirstAt rows c i k)
    (row : Array Nat) : FirstAt (rows.push row) c i k := by
  obtain ⟨r, hr, hc, hbefore⟩ := h.here
  obtain ⟨hi, -⟩ := Array.getElem?_eq_some_iff.1 hr
  refine ⟨⟨r, getElem?_push_of_eq_some hr, hc, hbefore⟩, fun j r' hj hr' => ?_⟩
  rcases getElem?_push_eq_some_iff.1 hr' with hr' | ⟨rfl, -⟩
  · exact h.earlier j r' hj hr'
  · exact absurd hi (Nat.not_lt.2 (Nat.le_of_lt hj))

/-- The rows before `i` are written. -/
structure Explored (key : σ → κ) (next : σ → UInt8 → σ) (inv : σ → Prop) (letters : List UInt8)
    (rows : Array (Array Nat)) (met : Met σ κ) : Prop where
  sound : met.Sound key inv
  size_le : rows.size ≤ met.states.size
  row : ∀ (i : Nat) (s : σ) (row : Array Nat), met.states[i]? = some s → rows[i]? = some row →
    List.Forall₂ (fun b t => met.Knows key t (next s b)) letters row.toList
  came_from : ∀ c, 0 < c → c < met.states.size → ∃ i k, i < c ∧ FirstAt rows c i k

variable {letters : List UInt8} {rows : Array (Array Nat)} {met : Met σ κ}

/-- One more row keeps the invariant. -/
theorem Explored.step (hnext : ∀ s b, inv s → inv (next s b))
    (h : Explored key next inv letters rows met) {s : σ} (hs : met.states[rows.size]? = some s) :
    Explored key next inv letters (rows.push (met.successors key next s letters #[]).1)
      (met.successors key next s letters #[]).2 ∧
      met.Grows (met.successors key next s letters #[]).2 := by
  obtain ⟨hsound, hgrow, ts, hts, hall, hnew⟩ :=
    Met.successors_spec (fun b => hnext s b (h.sound.inv _ s hs)) letters #[] h.sound
  obtain ⟨hlt, -⟩ := Array.getElem?_eq_some_iff.1 hs
  refine ⟨⟨hsound, ?_, fun i u row hu hrow => ?_, fun c hpos hc => ?_⟩, hgrow⟩
  · rw [Array.size_push]
    exact (Array.getElem?_eq_some_iff.1 (hgrow _ s hs)).1
  · rcases getElem?_push_eq_some_iff.1 hrow with hrow | ⟨rfl, rfl⟩
    · obtain ⟨hi, -⟩ := Array.getElem?_eq_some_iff.1 hrow
      have hold := Array.getElem?_eq_getElem (Nat.lt_trans hi hlt)
      rw [hgrow _ _ hold, Option.some.injEq] at hu
      exact (h.row i u row (hu ▸ hold) hrow).imp fun b t ht => ht.mono hgrow
    · rw [hgrow _ s hs, Option.some.injEq] at hu
      rw [hts, ← hu]
      exact hall
  · by_cases hold : c < met.states.size
    · obtain ⟨i, k, hi, hfirst⟩ := h.came_from c hpos hold
      exact ⟨i, k, hi, hfirst.push _⟩
    · rw [Nat.not_lt] at hold
      obtain ⟨k, hk, hbefore⟩ := hnew c hold hc
      have hrow : (met.successors key next s letters #[]).1.toList = ts := hts
      refine ⟨rows.size, k, Nat.lt_of_lt_of_le hlt hold,
        ⟨_, Array.getElem?_push_size, by rw [← Array.getElem?_toList, hrow, hk],
          fun j t hj ht => hbefore j t hj (by rwa [← hrow, Array.getElem?_toList])⟩,
        fun j row hj hold' t ht => ?_⟩
      -- the earlier rows name states that have been met before this row
      have hold' := (getElem?_push_eq_some_iff.1 hold').resolve_right fun heq => hj.ne heq.1
      have hs' := Array.getElem?_eq_getElem (Nat.lt_trans hj hlt)
      obtain ⟨b, -, hknows⟩ := exists_left_of_mem (h.row j _ row hs' hold') ht
      exact Nat.lt_of_lt_of_le hknows.lt hold

/-- The walk without a bound: rows are written until every state that has been met has one. -/
inductive Met.Walks (key : σ → κ) (next : σ → UInt8 → σ) (letters : List UInt8) :
    Array (Array Nat) → Met σ κ → Array (Array Nat) → Met σ κ → Prop
  | stop {rows : Array (Array Nat)} {met : Met σ κ} (h : met.states[rows.size]? = none) :
    Walks key next letters rows met rows met
  | more {rows rows' : Array (Array Nat)} {met met' : Met σ κ} {s : σ}
    (hs : met.states[rows.size]? = some s)
    (h : Walks key next letters (rows.push (met.successors key next s letters #[]).1)
      (met.successors key next s letters #[]).2 rows' met') :
    Walks key next letters rows met rows' met'

omit [LawfulBEq κ] in
theorem Met.Walks.unique {rows rows₁ rows₂ : Array (Array Nat)} {met met₁ met₂ : Met σ κ}
    (h₁ : Met.Walks key next letters rows met rows₁ met₁)
    (h₂ : Met.Walks key next letters rows met rows₂ met₂) : rows₁ = rows₂ ∧ met₁ = met₂ := by
  induction h₁ with
  | stop hnone =>
    cases h₂ with
    | stop => exact ⟨rfl, rfl⟩
    | more hs => nomatch hnone.symm.trans hs
  | more hs _ ih =>
    cases h₂ with
    | stop hnone => nomatch hnone.symm.trans hs
    | more hs' hmore =>
      obtain rfl := Option.some.inj (hs.symm.trans hs')
      exact ih hmore

/-- **The walk writes all rows**, because there are no more keys than the bound. -/
theorem Explored.rowsFrom {bound : Nat} (hnext : ∀ s b, inv s → inv (next s b))
    (hbound : ∀ met : Met σ κ, met.Sound key inv → met.states.size ≤ rows.size + bound)
    (h : Explored key next inv letters rows met) :
    Explored key next inv letters (Met.rowsFrom key next letters bound rows.size rows met).1
        (Met.rowsFrom key next letters bound rows.size rows met).2 ∧
      met.Grows (Met.rowsFrom key next letters bound rows.size rows met).2 ∧
      (Met.rowsFrom key next letters bound rows.size rows met).1.size =
        (Met.rowsFrom key next letters bound rows.size rows met).2.states.size ∧
      Met.Walks key next letters rows met (Met.rowsFrom key next letters bound rows.size rows met).1
        (Met.rowsFrom key next letters bound rows.size rows met).2 := by
  induction bound generalizing rows met with
  | zero =>
    have hsize := Nat.le_antisymm h.size_le (hbound met h.sound)
    exact ⟨h, .refl met, hsize, .stop (Array.getElem?_eq_none_iff.2 (Nat.le_of_eq hsize.symm))⟩
  | succ bound ih =>
    rw [Met.rowsFrom]
    split
    · rename_i hnone
      exact ⟨h, .refl met, Nat.le_antisymm h.size_le (Array.getElem?_eq_none_iff.1 hnone),
        .stop hnone⟩
    · rename_i s hs
      dsimp only
      obtain ⟨hstep, hgrow⟩ := h.step hnext hs
      obtain ⟨hlast, hgrow', hsize, hwalks⟩ := ih (fun met hmet => by
        have := hbound met hmet
        rw [Array.size_push]
        omega) hstep
      rw [Array.size_push] at hlast hgrow' hsize hwalks
      exact ⟨hlast, hgrow.trans hgrow', hsize, .more hs hwalks⟩

/-! ### The automaton of a machine -/

variable {alphabet : Alphabet} {accept : σ → Bool} {bound : Nat} {start : σ}

/-- The automaton has the rows that the walk without a bound writes. -/
def Explores (alphabet : Alphabet) (key : σ → κ) (next : σ → UInt8 → σ) (accept : σ → Bool)
    (start : σ) (a : Automaton) : Prop :=
  ∃ (rows : Array (Array Nat)) (met : Met σ κ),
    Met.Walks key next alphabet.representatives.toList #[] (Met.visit key ⟨∅, #[]⟩ start).2 rows
        met ∧
      a = ⟨alphabet, met.states.map accept, rows⟩

/-- The keys of a machine are a congruence, for all states of which the invariant holds, and there
are no more of them than the bound. -/
structure Explorable (alphabet : Alphabet) (key : σ → κ) (next : σ → UInt8 → σ) (accept : σ → Bool)
    (bound : Nat) (start : σ) (inv : σ → Prop) : Prop where
  valid_alphabet : alphabet.Valid
  inv_start : inv start
  inv_next : ∀ s b, inv s → inv (next s b)
  key_next : ∀ s t b, inv s → inv t → key s = key t → key (next s b) = key (next t b)
  key_letter : ∀ s b c, inv s → alphabet.letter b = alphabet.letter c →
    key (next s b) = key (next s c)
  accept_eq : ∀ s t, inv s → inv t → key s = key t → accept s = accept t
  bounded : ∃ rank : κ → Nat, (∀ s, inv s → rank (key s) < bound) ∧
    ∀ s t, inv s → inv t → rank (key s) = rank (key t) → key s = key t

namespace Explorable

omit [LawfulBEq κ] in
theorem size_le (h : Explorable alphabet key next accept bound start inv)
    (hmet : met.Sound key inv) : met.states.size ≤ bound := by
  obtain ⟨rank, hlt, hinj⟩ := h.bounded
  have hnodup : (met.states.toList.map fun s => rank (key s)).Nodup := by
    refine List.pairwise_map.2 (List.pairwise_iff_getElem.2 fun i j hi hj hij heq => ?_)
    have hi' := Array.getElem?_eq_getElem (Array.length_toList ▸ hi)
    have hj' := Array.getElem?_eq_getElem (Array.length_toList ▸ hj)
    have hkey := hinj _ _ (hmet.inv i _ hi') (hmet.inv j _ hj') heq
    exact Nat.ne_of_lt hij (hmet.indexes.eq_of_key_eq hi' hj' hkey)
  have hsub : (met.states.toList.map fun s => rank (key s)) ⊆ List.range bound := by
    intro n hn
    obtain ⟨s, hs, rfl⟩ := List.mem_map.1 hn
    obtain ⟨i, hi, rfl⟩ := List.mem_iff_getElem.1 hs
    exact List.mem_range.2 (hlt _ (hmet.inv i _ (Array.getElem?_eq_getElem
      (Array.length_toList ▸ hi))))
  have hle := (List.subperm_of_subset hnodup hsub).length_le
  rwa [List.length_map, Array.length_toList, List.length_range] at hle

/-- What is known of the table when the walk is over. -/
theorem explored (h : Explorable alphabet key next accept bound start inv) :
    ∃ (rows : Array (Array Nat)) (met : Met σ κ),
      explore alphabet key next accept bound start = ⟨alphabet, met.states.map accept, rows⟩ ∧
        Explored key next inv alphabet.representatives.toList rows met ∧
        met.states[0]? = some start ∧ rows.size = met.states.size ∧
        Met.Walks key next alphabet.representatives.toList #[] (Met.visit key ⟨∅, #[]⟩ start).2
          rows met := by
  set first : Met σ κ := ⟨(∅ : Std.HashMap κ Nat).insert (key start) 0, #[start]⟩ with hfirst
  have hvisit : Met.visit key ⟨∅, #[]⟩ start = (0, first) := by
    rw [Met.visit, Std.HashMap.getElem?_empty]
    rfl
  have hsound : first.Sound key inv := by
    have hempty : Met.Sound key inv (⟨∅, #[]⟩ : Met σ κ) :=
      ⟨.empty key, fun i s hs => nomatch hs⟩
    have h := (Met.visit_spec hempty h.inv_start).1
    rwa [hvisit] at h
  have h0 : Explored key next inv alphabet.representatives.toList #[] first := {
    sound := hsound
    size_le := Nat.zero_le _
    row := fun i s row _ hrow => nomatch hrow
    came_from := fun c hpos hc => absurd hc (Nat.not_lt.2 hpos) }
  have hbound : ∀ met : Met σ κ, met.Sound key inv → met.states.size ≤ 0 + bound := fun met hmet =>
    (Nat.zero_add bound).symm ▸ h.size_le hmet
  obtain ⟨hlast, hgrow, hsize, hwalks⟩ := h0.rowsFrom h.inv_next hbound
  rw [hvisit]
  refine ⟨_, _, ?_, hlast, hgrow 0 start rfl, hsize, hwalks⟩
  rw [explore, hvisit]
  rfl

/-- **The walk ends by itself**: without a bound it comes to the same automaton. -/
theorem explores_iff (h : Explorable alphabet key next accept bound start inv) (a : Automaton) :
    Explores alphabet key next accept start a ↔
      a = explore alphabet key next accept bound start := by
  obtain ⟨rows, met, heq, -, -, -, hwalks⟩ := h.explored
  constructor
  · rintro ⟨rows', met', hwalks', rfl⟩
    obtain ⟨rfl, rfl⟩ := hwalks.unique hwalks'
    exact heq.symm
  · rintro rfl
    exact ⟨rows, met, hwalks, heq⟩

omit [LawfulBEq κ] in
/-- A row that is written names the successors of some state. -/
theorem exists_forall₂_row (hexp : Explored key next inv letters rows met)
    (hsize : rows.size = met.states.size) {q : Nat} {row : Array Nat} (hrow : rows[q]? = some row) :
    ∃ s, List.Forall₂ (fun b t => met.Knows key t (next s b)) letters row.toList := by
  obtain ⟨hq, -⟩ := Array.getElem?_eq_some_iff.1 hrow
  exact ⟨_, hexp.row q _ row (Array.getElem?_eq_getElem (hsize ▸ hq)) hrow⟩

omit [LawfulBEq κ] in
/-- Every state is reached, because the row that names it first is that of an earlier state. -/
theorem exists_run_eq (hvalid : alphabet.Valid)
    (hexp : Explored key next inv alphabet.representatives.toList rows met)
    (hsize : rows.size = met.states.size) {c : Nat} (hc : c < met.states.size) :
    ∃ w, run ⟨alphabet, met.states.map accept, rows⟩ w = c := by
  induction c using Nat.strongRecOn with
  | ind c ih =>
    rcases Nat.eq_zero_or_pos c with rfl | hpos
    · exact ⟨[], rfl⟩
    obtain ⟨i, k, hic, hfirst⟩ := hexp.came_from c hpos hc
    obtain ⟨row, hrow, hk, -⟩ := hfirst.here
    obtain ⟨w, hw⟩ := ih i hic (Nat.lt_trans hic hc)
    obtain ⟨s, hall⟩ := exists_forall₂_row hexp hsize hrow
    -- the byte that represents letter `k` leads from state `i` to state `c`
    have hk' : k < alphabet.representatives.size := by
      rw [← Array.length_toList, hall.length_eq]
      exact (Array.getElem?_eq_some_iff.1 hk).1
    refine ⟨w ++ [alphabet.representatives[k]], ?_⟩
    have hletter := hvalid.letter_representative k _ (Array.getElem?_eq_getElem hk')
    have hi : rows.getD i #[] = row := by
      rw [Array.getD_eq_getD_getElem?, hrow, Option.getD_some]
    rw [run_concat, hw, step]
    dsimp only
    rw [hi, hletter, Array.getD_eq_getD_getElem?, hk, Option.getD_some]

/-- **Exploring makes well-formed automata.** -/
theorem valid_explore (h : Explorable alphabet key next accept bound start inv) :
    (explore alphabet key next accept bound start).Valid := by
  obtain ⟨rows, met, heq, hexp, hstart, hsize, -⟩ := h.explored
  rw [heq]
  refine {
    alphabet := h.valid_alphabet
    size_pos := ?_
    size_rows := hsize.trans Array.size_map.symm
    size_row := fun q row hrow => ?_
    target_lt := fun q row hrow t ht => ?_
    exists_run_eq := fun c hc => ?_ }
  · rw [size, Array.size_map]
    exact (Array.getElem?_eq_some_iff.1 hstart).1
  · obtain ⟨s, hall⟩ := exists_forall₂_row hexp hsize hrow
    exact hall.length_eq.symm
  · obtain ⟨s, hall⟩ := exists_forall₂_row hexp hsize hrow
    obtain ⟨b, -, hknows⟩ := exists_left_of_mem hall ht
    rw [size, Array.size_map]
    exact hknows.lt
  · rw [size, Array.size_map] at hc
    exact exists_run_eq h.valid_alphabet hexp hsize hc

/-- The state of the automaton after some bytes has the key of the state of the machine. -/
theorem exists_knows_run (h : Explorable alphabet key next accept bound start inv) :
    ∃ met : Met σ κ, met.Sound key inv ∧
      (explore alphabet key next accept bound start).accepting = met.states.map accept ∧
      ∀ w : List UInt8, inv (w.foldl next start) ∧
        met.Knows key ((explore alphabet key next accept bound start).run w)
          (w.foldl next start) := by
  have hvalid := h.valid_explore
  obtain ⟨rows, met, heq, hexp, hstart, -, -⟩ := h.explored
  rw [heq] at hvalid ⊢
  refine ⟨met, hexp.sound, rfl, fun w => ?_⟩
  induction w using List.reverseRecOn with
  | nil => exact ⟨h.inv_start, start, hstart, rfl⟩
  | append_singleton w b ih =>
    obtain ⟨hinv, s, hs, hkey⟩ := ih
    have hs' := hexp.sound.inv _ s hs
    rw [List.foldl_append, run_concat]
    refine ⟨h.inv_next _ b hinv, ?_⟩
    obtain ⟨row, hrow⟩ := hvalid.exists_row (hvalid.run_lt w)
    have hall := hexp.row _ s row hs hrow
    obtain ⟨r, hr, -⟩ := h.valid_alphabet.exists_representative b
    obtain ⟨hlt, hrb⟩ := Array.getElem?_eq_some_iff.1 hr
    have hstep := hvalid.getElem?_row hrow b
    obtain ⟨hlt', hstep⟩ := Array.getElem?_eq_some_iff.1 hstep
    obtain ⟨u, hu, hukey⟩ := hall.get hlt hlt'
    refine ⟨u, ?_, hukey.trans ?_⟩
    · rw [← hstep]
      exact hu
    · have hletter := h.valid_alphabet.letter_representative _ r hr
      rw [List.get_eq_getElem, Array.getElem_toList, hrb]
      calc key (next s r) = key (next s b) := h.key_letter s r b hs' hletter
        _ = key (next (w.foldl next start) b) := h.key_next _ _ b hs' hinv hkey

/-- **The automaton of a machine ends where the machine does.** -/
theorem acceptsBytes_explore (h : Explorable alphabet key next accept bound start inv)
    (w : List UInt8) :
    (explore alphabet key next accept bound start).acceptsBytes w =
      accept (w.foldl next start) := by
  obtain ⟨met, hsound, hacc, hrun⟩ := h.exists_knows_run
  obtain ⟨hinv, s, hs, hkey⟩ := hrun w
  rw [acceptsBytes, isAccepting, hacc, Array.getD_eq_getD_getElem?, Array.getElem?_map, hs,
    Option.map_some, Option.getD_some]
  exact h.accept_eq _ _ (hsound.inv _ s hs) hinv hkey

/-- **Byte strings lead to one state** of the automaton exactly if they lead to one key. -/
theorem run_explore_eq_iff (h : Explorable alphabet key next accept bound start inv)
    (u v : List UInt8) :
    (explore alphabet key next accept bound start).run u =
        (explore alphabet key next accept bound start).run v ↔
      key (u.foldl next start) = key (v.foldl next start) := by
  obtain ⟨met, hsound, -, hrun⟩ := h.exists_knows_run
  obtain ⟨-, s, hs, hu⟩ := hrun u
  obtain ⟨-, t, ht, hv⟩ := hrun v
  constructor
  · intro heq
    rw [heq, ht, Option.some.injEq] at hs
    rw [← hu, ← hv, hs]
  · intro hkey
    exact hsound.indexes.eq_of_key_eq hs ht (by rw [hu, hv, hkey])

end Explorable
end
end Automaton
end RouteSolver
