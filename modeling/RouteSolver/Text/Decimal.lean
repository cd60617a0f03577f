/-
# Decimal numbers

Natural numbers as runs of ASCII digits: `digits` writes one without leading zeros, `read?` reads
any run back, leading zeros included. Main statement: `read?_digits`, reading what was written.
-/

namespace RouteSolver
namespace Decimal

/-- The digit for a number below ten. -/
def digitChar (n : Nat) : Char := Char.ofNat (48 + n)

/-- The number that a digit stands for. -/
def digitValue (c : Char) : Nat := c.toNat - 48

/-- The decimal digits of a number. -/
def digits (n : Nat) : List Char :=
  if n < 10 then [digitChar n] else digits (n / 10) ++ [digitChar (n % 10)]
termination_by n
decreasing_by omega

/-- The decimal text of a number. -/
def text (n : Nat) : String := String.ofList (digits n)

/-- The number that some digits stand for. -/
def value (cs : List Char) : Nat := cs.foldl (fun acc c => acc * 10 + digitValue c) 0

/-- Reads a run of at least one digit and nothing else. -/
def read? (cs : List Char) : Option Nat :=
  if cs.isEmpty || !cs.all Char.isDigit then none else some (value cs)

/-- Reads a run of digits whose number is at most `max`. -/
def readUpTo? (max : Nat) (cs : List Char) : Option Nat :=
  (read? cs).filter (· ≤ max)

theorem digitChar_isDigit {n : Nat} (h : n < 10) : (digitChar n).isDigit = true := by
  have key : ∀ m : Fin 10, (digitChar m.val).isDigit = true := by decide
  exact key ⟨n, h⟩

theorem digitValue_digitChar {n : Nat} (h : n < 10) : digitValue (digitChar n) = n := by
  have key : ∀ m : Fin 10, digitValue (digitChar m.val) = m.val := by decide
  exact key ⟨n, h⟩

theorem digits_ne_nil (n : Nat) : digits n ≠ [] := by
  rw [digits]; split <;> simp

theorem digits_all_isDigit (n : Nat) : (digits n).all Char.isDigit = true := by
  induction n using Nat.strongRecOn with
  | ind n ih =>
    rw [digits]
    split
    · rename_i h; simp [digitChar_isDigit h]
    · rename_i h
      rw [List.all_append, ih (n / 10) (by omega)]
      simp [digitChar_isDigit (Nat.mod_lt n (by omega : 10 > 0))]

theorem value_digits (n : Nat) : value (digits n) = n := by
  induction n using Nat.strongRecOn with
  | ind n ih =>
    rw [digits]
    split
    · rename_i h; simp [value, digitValue_digitChar h]
    · rename_i h
      have hv := ih (n / 10) (by omega)
      rw [value] at hv ⊢
      rw [List.foldl_append, hv]
      simp only [List.foldl_cons, List.foldl_nil,
        digitValue_digitChar (Nat.mod_lt n (by omega : 10 > 0))]
      omega

/-- **Reading what was written** gives the number back. -/
theorem read?_digits (n : Nat) : read? (digits n) = some n := by
  simp [read?, digits_ne_nil, digits_all_isDigit, value_digits]

end Decimal
end RouteSolver
