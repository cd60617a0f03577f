/-
# Addresses and networks read back

An address is read back from its text, and so is a network, host bits included
(`Address.read?_text`, `Network.read?_text`). The text of an address is its four octets with points
between them, and the octets are the address again (`Address.toList_text`).
-/

import RouteSolver.Network
import RouteSolver.Proofs.Text.Decimal
import RouteSolver.Proofs.Text.Split

namespace RouteSolver

open Decimal

namespace Address

/-- The text of an address is its four octets with points between them. -/
theorem toList_text (a : Address) : ∃ n₁ n₂ n₃ n₄ : Nat,
    (n₁ ≤ 255 ∧ n₂ ≤ 255 ∧ n₃ ≤ 255 ∧ n₄ ≤ 255) ∧ a = ofOctets n₁ n₂ n₃ n₄ ∧
    a.text.toList = digits n₁ ++ [digits n₂, digits n₃, digits n₄].flatMap ('.' :: ·) := by
  have hlt : a.toNat < 4294967296 := a.bits.toNat_lt
  refine ⟨a.toNat / 256 / 256 / 256, a.toNat / 256 / 256 % 256, a.toNat / 256 % 256, a.toNat % 256,
    ?_, ?_, ?_⟩
  · omega
  · have hnumber : ((a.toNat / 256 / 256 / 256 * 256 + a.toNat / 256 / 256 % 256) * 256 +
        a.toNat / 256 % 256) * 256 + a.toNat % 256 = a.toNat := by omega
    rw [ofOctets, hnumber, ofNat, toNat, UInt32.ofNat_toNat]
  · rw [text, octets]
    simp only [List.map_cons, List.map_nil, Text.toList_joinWith, Decimal.text,
      String.toList_ofList, List.flatMap_cons, List.flatMap_nil]
    rfl

theorem point_not_mem_digits (n : Nat) : '.' ∉ digits n := not_mem_digits (by decide) n

/-- Whichever way octets are read, an address is read back if its octets are. -/
theorem readWith_text {octet? : List Char → Option Nat}
    (h : ∀ n, n ≤ 255 → octet? (digits n) = some n) (a : Address) :
    readWith octet? a.text.toList = some a := by
  obtain ⟨n₁, n₂, n₃, n₄, ⟨h₁, h₂, h₃, h₄⟩, rfl, htext⟩ := a.toList_text
  have hpoints : ∀ p ∈ [digits n₂, digits n₃, digits n₄], '.' ∉ p := by
    simp only [List.forall_mem_cons, point_not_mem_digits, not_false_eq_true, true_and]
    exact nofun
  rw [readWith, htext, Text.split_join (point_not_mem_digits n₁) hpoints]
  simp only [List.mapM_cons, List.mapM_nil, h _ h₁, h _ h₂, h _ h₃, h _ h₄]
  rfl

theorem octet?_digits {n : Nat} (h : n ≤ 255) : octet? (digits n) = some n := by
  rw [octet?, if_pos ((length_digits_le_iff (by decide)).2 (by omega)), readUpTo?_digits h]

theorem strictOctet?_digits {n : Nat} (h : n ≤ 255) : strictOctet? (digits n) = some n := by
  have hzero := (isNumeral_digits n).eq_zero
  rw [strictOctet?, if_neg fun hn => hn.2 (hzero hn.1), octet?_digits h]

/-- **An address is read back** from its text. -/
theorem read?_text (a : Address) : read? a.text = some a :=
  readWith_text (fun _ => strictOctet?_digits) a

end Address

namespace Network

theorem length?_digits {n : Nat} (h : n ≤ 32) : length? (digits n) = some n := by
  rw [length?, if_pos ((length_digits_le_iff (by decide)).2 (by omega)), readUpTo?_digits h]

/-- **A network is read back** from its text, host bits included. -/
theorem read?_text (n : Network) : read? n.text = some n := by
  have hslash : '/' ∉ n.address.text.toList := by
    obtain ⟨n₁, n₂, n₃, n₄, -, -, htext⟩ := n.address.toList_text
    have hdigits : ∀ m : Nat, '/' ∉ digits m := not_mem_digits (by decide)
    rw [htext]
    simp [hdigits]
  have htext : n.text.toList = n.address.text.toList ++ '/' :: digits n.length := by
    simp only [text, String.toList_append, Decimal.text, String.toList_ofList, List.append_assoc]
    rfl
  rw [read?, htext, Text.cut_append hslash]
  simp only [Option.bind_eq_bind, Option.bind_some, length?_digits n.length_le,
    Address.readWith_text (fun _ => Address.octet?_digits)]
  exact dif_pos n.length_le

end Network
end RouteSolver
