/-
# All automata

An automaton is made by one of the constructors or put together from others (`Constructed`). All of
them are valid (`Constructed.valid`). Complement, the automaton of a text and the two automata with
one state are not the result of a minimization, so they are looked at one by one.
-/

import RouteSolver.Proofs.Automaton.Boolean
import RouteSolver.Proofs.Regex.Marked
import RouteSolver.Regex.Meaning

namespace RouteSolver
namespace Automaton

/-- The automata that can be made. A pattern is compiled by way of its expression. -/
inductive Constructed : Automaton → Prop
  | nothing : Constructed nothing
  | anything : Constructed anything
  | ofText (text : String) : Constructed (ofText text)
  | ofExpr (e : Regex.Expr) : Constructed (ofExpr e)
  | inter {a b : Automaton} : Constructed a → Constructed b → Constructed (a.inter b)
  | union {a b : Automaton} : Constructed a → Constructed b → Constructed (a.union b)
  | minus {a b : Automaton} : Constructed a → Constructed b → Constructed (a.minus b)
  | compl {a : Automaton} : Constructed a → Constructed a.compl

theorem size_representatives_unit : Alphabet.unit.representatives.size = 1 := by
  have hvalid : Alphabet.unit.Valid := Alphabet.valid_ofKey _
  -- all bytes are one letter, and every letter is that of some byte
  have hone : ∀ c, c < Alphabet.unit.representatives.size → c = Alphabet.unit.letter 0 := by
    intro c hc
    rw [← hvalid.letter_representative c _ (Array.getElem?_eq_getElem hc)]
    exact (Alphabet.letter_ofKey_eq_iff _ _ _).2 rfl
  have hpos := hvalid.letter_lt 0
  by_contra hsize
  have h₀ := hone 0 (by omega)
  have h₁ := hone 1 (by omega)
  omega

/-- All bytes are one letter. -/
theorem letter_unit (x : UInt8) : Alphabet.unit.letter x = 0 := by
  have hlt := (Alphabet.valid_ofKey fun _ => ()).letter_lt x
  exact Nat.lt_one_iff.1 (size_representatives_unit ▸ hlt)

section
variable {accepting : Array Bool} {rows : Array (Array Nat)}

/-- A table with a single letter is complete if every row names one state. -/
theorem complete_unit (hpos : 0 < accepting.size) (hsize : rows.size = accepting.size)
    (hrow : ∀ row ∈ rows, row.size = 1) (hlt : ∀ row ∈ rows, ∀ t ∈ row, t < accepting.size) :
    Complete ⟨.unit, accepting, rows⟩ where
  alphabet := Alphabet.valid_ofKey _
  size_pos := hpos
  size_rows := hsize
  size_row _ row h := (hrow row (Array.mem_of_getElem? h)).trans size_representatives_unit.symm
  target_lt _ row h t ht := hlt row (Array.mem_of_getElem? h) t (Array.mem_toList_iff.1 ht)

theorem step_unit (q : Nat) (x : UInt8) :
    (⟨.unit, accepting, rows⟩ : Automaton).step q x = (rows.getD q #[]).getD 0 0 := by
  rw [step, letter_unit]

end

theorem valid_single (accepting : Bool) : Valid ⟨.unit, #[accepting], #[#[0]]⟩ where
  toComplete := complete_unit Nat.one_pos rfl (by simp) (by simp)
  exists_run_eq q hq := ⟨[], (Nat.lt_one_iff.1 hq).symm⟩

theorem Valid.compl {a : Automaton} (h : a.Valid) : a.compl.Valid := by
  have hsize : a.compl.size = a.size := Array.size_map
  exact {
    alphabet := h.alphabet
    size_pos := hsize ▸ h.size_pos
    size_rows := h.size_rows.trans hsize.symm
    size_row := h.size_row
    target_lt := hsize.symm ▸ h.target_lt
    exists_run_eq := hsize.symm ▸ h.exists_run_eq }

theorem isAccepting_compl {a : Automaton} {q : Nat} (hq : q < a.size) :
    a.compl.isAccepting q = !a.isAccepting q := by
  rw [isAccepting, isAccepting, compl, Array.getD_eq_getD_getElem?, Array.getD_eq_getD_getElem?,
    Array.getElem?_map, Array.getElem?_eq_getElem hq]
  rfl

theorem run_compl (a : Automaton) (w : List UInt8) : a.compl.run w = a.run w := rfl

/-- **The complement** accepts what the automaton does not. -/
theorem Complete.acceptsBytes_compl {a : Automaton} (h : a.Complete) (w : List UInt8) :
    a.compl.acceptsBytes w = !a.acceptsBytes w :=
  isAccepting_compl (h.run_lt w)

/-- What a pattern is compiled to has been made by way of an expression. -/
theorem Constructed.ofPattern {pattern : String} {a : Automaton}
    (h : Automaton.ofPattern pattern = .ok a) : a.Constructed := by
  rw [Automaton.ofPattern] at h
  split at h
  · obtain rfl := Except.ok.inj h
    exact .ofExpr _
  · nomatch h

/-- **Every automaton** that can be made is valid. -/
theorem Constructed.valid {a : Automaton} (h : a.Constructed) : a.Valid := by
  induction h with
  | nothing => exact valid_single false
  | anything => exact valid_single true
  | ofText text => exact valid_ofBytes _
  | ofExpr e => exact valid_ofExpr e
  | inter _ _ iha ihb => exact iha.inter ihb
  | union _ _ iha ihb => exact iha.union ihb
  | minus _ _ iha ihb => exact iha.minus ihb
  | compl _ ih => exact ih.compl

end Automaton
end RouteSolver
