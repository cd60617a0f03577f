/-
# Numerals

The texts of numbers are the numerals (`IsNumeral`): digits without leading zeros. Each numeral is
the text of its value (`digits_value`), and a number has as many digits as its size asks for
(`length_digits_le_iff`).
-/

import RouteSolver.Text.Decimal
import Mathlib.Algebra.Ring.Nat
import Mathlib.Data.List.Induction
import Mathlib.Data.Nat.Basic

namespace RouteSolver
namespace Decimal

theorem isDigit_iff {c : Char} : c.isDigit = true ↔ 48 ≤ c.toNat ∧ c.toNat ≤ 57 := by
  rw [Char.isDigit, Bool.and_eq_true, decide_eq_true_iff, decide_eq_true_iff]
  exact and_congr UInt32.le_iff_toNat_le UInt32.le_iff_toNat_le

theorem digitValue_lt {c : Char} (h : c.isDigit = true) : digitValue c < 10 := by
  have := isDigit_iff.1 h
  rw [digitValue]
  omega

theorem digitChar_digitValue {c : Char} (h : c.isDigit = true) : digitChar (digitValue c) = c := by
  have := isDigit_iff.1 h
  rw [digitChar, digitValue, show 48 + (c.toNat - 48) = c.toNat by omega, Char.ofNat_toNat]

theorem digits_of_lt {n : Nat} (h : n < 10) : digits n = [digitChar n] := by
  rw [digits, if_pos h]

theorem digits_of_ge {n : Nat} (h : 10 ≤ n) :
    digits n = digits (n / 10) ++ [digitChar (n % 10)] := by
  rw [digits, if_neg (Nat.not_lt.2 h)]

theorem isDigit_of_mem_digits {n : Nat} {c : Char} (h : c ∈ digits n) : c.isDigit = true :=
  List.all_eq_true.1 (digits_all_isDigit n) c h

theorem not_mem_digits {c : Char} (h : c.isDigit = false) (n : Nat) : c ∉ digits n := fun hc =>
  absurd (isDigit_of_mem_digits hc) (Bool.eq_false_iff.1 h)

theorem digits_injective {m n : Nat} (h : digits m = digits n) : m = n := by
  rw [← value_digits m, h, value_digits]

theorem value_concat (cs : List Char) (c : Char) :
    value (cs ++ [c]) = value cs * 10 + digitValue c := by
  rw [value, List.foldl_append]
  rfl

theorem value_lt {cs : List Char} (h : cs.all Char.isDigit = true) : value cs < 10 ^ cs.length := by
  induction cs using List.reverseRecOn with
  | nil => exact Nat.one_pos
  | append_singleton cs c ih =>
    rw [List.all_append, Bool.and_eq_true] at h
    have hc := digitValue_lt (List.all_eq_true.1 h.2 c (List.mem_singleton.2 rfl))
    have := ih h.1
    rw [value_concat, List.length_append, List.length_singleton, Nat.pow_succ]
    omega

/-- A number has at most as many digits as a power of ten above it has zeros. -/
theorem length_digits_le_iff {n k : Nat} (hk : 0 < k) : (digits n).length ≤ k ↔ n < 10 ^ k := by
  constructor
  · intro h
    have hlt := value_lt (digits_all_isDigit n)
    rw [value_digits] at hlt
    exact Nat.lt_of_lt_of_le hlt (Nat.pow_le_pow_right (by decide) h)
  · intro h
    induction k generalizing n with
    | zero => exact absurd hk (Nat.lt_irrefl 0)
    | succ k ih =>
      rcases Nat.lt_or_ge n 10 with hn | hn
      · rw [digits_of_lt hn]
        exact Nat.succ_le_succ (Nat.zero_le k)
      · rw [digits_of_ge hn, List.length_append, List.length_singleton]
        rw [Nat.pow_succ] at h
        rcases Nat.eq_zero_or_pos k with rfl | hk
        · omega
        · exact Nat.succ_le_succ (ih hk (by omega))

/-! ### Numerals -/

/-- Digits without leading zeros. -/
structure IsNumeral (cs : List Char) : Prop where
  ne_nil : cs ≠ []
  digits : cs.all Char.isDigit = true
  eq_zero : cs.head? = some '0' → cs = ['0']

theorem value_pos {c : Char} {cs : List Char} (hc : c.isDigit = true) (hne : c ≠ '0') :
    0 < value (c :: cs) := by
  induction cs using List.reverseRecOn with
  | nil =>
    have hpos : digitValue c ≠ 0 := fun h => hne (by rw [← digitChar_digitValue hc, h]; rfl)
    rw [value, List.foldl_cons, List.foldl_nil]
    omega
  | append_singleton cs d ih =>
    rw [← List.cons_append, value_concat]
    omega

/-- **A numeral is the text of its value.** -/
theorem digits_value {cs : List Char} (h : IsNumeral cs) : Decimal.digits (value cs) = cs := by
  obtain ⟨hne, hdigits, hzero⟩ := h
  induction cs using List.reverseRecOn with
  | nil => exact absurd rfl hne
  | append_singleton cs c ih =>
    rw [List.all_append, Bool.and_eq_true] at hdigits
    have hc : c.isDigit = true := List.all_eq_true.1 hdigits.2 c (List.mem_singleton.2 rfl)
    have hlt := digitValue_lt hc
    rw [value_concat]
    cases cs with
    | nil =>
      rw [show value [] * 10 + digitValue c = digitValue c by rw [value, List.foldl_nil]; omega,
        digits_of_lt hlt, digitChar_digitValue hc]
      rfl
    | cons d ds =>
      have hd : d.isDigit = true := List.all_eq_true.1 hdigits.1 d List.mem_cons_self
      have hd0 : d ≠ '0' := by
        rintro rfl
        have := congrArg List.length (hzero rfl)
        rw [List.length_append, List.length_cons, List.length_singleton, List.length_singleton]
          at this
        omega
      have hpos : 0 < value (d :: ds) := value_pos hd hd0
      have hhead : (d :: ds).head? = some '0' → (d :: ds) = ['0'] := fun h =>
        absurd (Option.some.inj h) hd0
      rw [digits_of_ge (by omega), show (value (d :: ds) * 10 + digitValue c) / 10 =
        value (d :: ds) by omega, ih (List.cons_ne_nil d ds) hdigits.1 hhead,
        show (value (d :: ds) * 10 + digitValue c) % 10 = digitValue c by omega,
        digitChar_digitValue hc]

/-- The text of a number is a numeral. -/
theorem isNumeral_digits (n : Nat) : IsNumeral (Decimal.digits n) := by
  refine ⟨digits_ne_nil n, digits_all_isDigit n, ?_⟩
  induction n using Nat.strongRecOn with
  | ind n ih =>
    rcases Nat.lt_or_ge n 10 with hn | hn
    · rw [digits_of_lt hn]
      exact fun h => congrArg (fun c => [c]) (Option.some.inj h)
    · rw [digits_of_ge hn]
      intro h
      have hhead : (Decimal.digits (n / 10)).head? = some '0' := by
        cases hd : Decimal.digits (n / 10) with
        | nil => exact absurd hd (digits_ne_nil _)
        | cons d ds => rwa [hd] at h
      have hzero := congrArg value (ih (n / 10) (by omega) hhead)
      rw [value_digits] at hzero
      have : value ['0'] = 0 := rfl
      omega

/-! ### Reading within a bound -/

theorem readUpTo?_digits {max n : Nat} (h : n ≤ max) :
    readUpTo? max (Decimal.digits n) = some n := by
  rw [readUpTo?, read?_digits, Option.filter_some, if_pos (decide_eq_true h)]

theorem readUpTo?_digits_of_gt {max n : Nat} (h : max < n) :
    readUpTo? max (Decimal.digits n) = none := by
  rw [readUpTo?, read?_digits, Option.filter_some,
    if_neg (by simpa using h)]

/-- What is not all digits is no number. -/
theorem readUpTo?_of_mem {max : Nat} {cs : List Char} {c : Char} (hc : c ∈ cs)
    (h : c.isDigit = false) : readUpTo? max cs = none := by
  have hall : cs.all Char.isDigit = false :=
    List.all_eq_false.2 ⟨c, hc, Bool.eq_false_iff.1 h⟩
  rw [readUpTo?, read?, hall, Bool.not_false, Bool.or_true, if_pos rfl]
  rfl

end Decimal
end RouteSolver
