/-
# Decoding what was encoded

Decoding reads the bytes of a character as that character and goes on behind them
(`decodeWithin_utf8EncodeChar`): the first byte says how many more belong to it, and the bounds of
the second one, which keep overlong forms and surrogates out, leave every character in. So the bytes
of a text are read as the text, whatever follows (`decode_bytes_append`), and encoding undoes
decoding exactly where there is a text with these bytes (`bytes_decode_eq_iff`).
-/

import RouteSolver.Proofs.Text.Ascii
import Mathlib.Data.Fintype.Basic
import Mathlib.Tactic.FinCases

namespace RouteSolver
namespace Utf8

/-! ### First bytes -/

/-- Five bits of eleven, not all of them small enough for a single byte. -/
theorem lead_two (u : Fin 32) (h : 2 ≤ u.val) :
    lead (UInt8.ofNat (u + 192)) = some ⟨u, 1, 0x80, 0xBF⟩ := by
  fin_cases u <;> first | rfl | exact absurd h (by decide)

/-- Four bits of sixteen; the second byte depends on them if they are those of overlong forms or of
surrogates. -/
theorem lead_three (u : Fin 16) : lead (UInt8.ofNat (u + 224)) =
    some ⟨u, 2, if u.val = 0 then 0xA0 else 0x80, if u.val = 13 then 0x9F else 0xBF⟩ := by
  fin_cases u <;> rfl

/-- Three bits of twenty-one, up to those of the last code point. -/
theorem lead_four (u : Fin 5) : lead (UInt8.ofNat (u + 240)) =
    some ⟨u, 3, if u.val = 0 then 0x90 else 0x80, if u.val = 4 then 0x8F else 0xBF⟩ := by
  fin_cases u <;> rfl

/-! ### Characters -/

/-- A following byte adds six bits to the code point. -/
theorem follow_ofNat {low high : UInt8} {n acc m : Nat} (hm : m < 64) (hlow : low.toNat ≤ m + 128)
    (hhigh : m + 128 ≤ high.toNat) (bs : List UInt8) :
    follow (n + 1) low high acc (UInt8.ofNat (m + 128) :: bs) =
      follow n 0x80 0xBF (acc * 64 + m) bs := by
  have hlt : m + 128 < 256 := by omega
  have hbyte : (UInt8.ofNat (m + 128)).toNat = m + 128 := UInt8.toNat_ofNat_of_lt' hlt
  have hbounds : low ≤ UInt8.ofNat (m + 128) ∧ UInt8.ofNat (m + 128) ≤ high := by
    rw [UInt8.le_iff_toNat_le, UInt8.le_iff_toNat_le, hbyte]
    exact ⟨hlow, hhigh⟩
  rw [follow, if_pos hbounds, hbyte, Nat.add_sub_cancel]

/-- After the second byte the bounds are those of all following bytes. -/
theorem follow_ofNat_of_lt {n acc m : Nat} (hm : m < 64) (bs : List UInt8) :
    follow (n + 1) 0x80 0xBF acc (UInt8.ofNat (m + 128) :: bs) =
      follow n 0x80 0xBF (acc * 64 + m) bs := by
  have hlow : UInt8.toNat 0x80 = 128 := rfl
  have hhigh : UInt8.toNat 0xBF = 191 := rfl
  exact follow_ofNat hm (by omega) (by omega) bs

/-- A character above ASCII is read by its first byte. -/
theorem decodeWithin_lead {v n code : Nat} {l : Lead} {bs rest : List UInt8} (hv : 128 ≤ v)
    (hlt : v < 256) (hl : lead (UInt8.ofNat v) = some l)
    (hcode : follow l.following l.low l.high l.bits bs = (some code, rest)) :
    decodeWithin (n + 1) (UInt8.ofNat v :: bs) = Char.ofNat code :: decodeWithin n rest := by
  have hascii : ¬UInt8.ofNat v < 0x80 := by
    rw [UInt8.lt_iff_toNat_lt, UInt8.toNat_ofNat_of_lt' hlt]
    exact Nat.not_lt.2 hv
  rw [decodeWithin, if_neg hascii, hl]
  simp only [hcode]

theorem utf8EncodeChar_eq (c : Char) : String.utf8EncodeChar c =
    let v := c.toNat
    if v ≤ 0x7F then [.ofNat v]
    else if v ≤ 0x7FF then [.ofNat (v / 64 % 32 + 192), .ofNat (v % 64 + 128)]
    else if v ≤ 0xFFFF then
      [.ofNat (v / 4096 % 16 + 224), .ofNat (v / 64 % 64 + 128), .ofNat (v % 64 + 128)]
    else [.ofNat (v / 262144 % 8 + 240), .ofNat (v / 4096 % 64 + 128), .ofNat (v / 64 % 64 + 128),
      .ofNat (v % 64 + 128)] := rfl

/-- **The bytes of a character** are read as that character. -/
theorem decodeWithin_utf8EncodeChar (c : Char) (n : Nat) (rest : List UInt8) :
    decodeWithin (n + 1) (String.utf8EncodeChar c ++ rest) = c :: decodeWithin n rest := by
  have hvalid : c.toNat < 0xD800 ∨ 0xDFFF < c.toNat ∧ c.toNat < 0x110000 := c.valid
  have hchar : ∀ {v}, v = c.toNat → Char.ofNat v = c := fun hv => hv ▸ Char.ofNat_toNat c
  rw [utf8EncodeChar_eq]
  generalize c.toNat = v at hvalid hchar
  dsimp only
  split
  · rename_i h
    have hascii : UInt8.ofNat v < 0x80 := by
      rw [UInt8.lt_iff_toNat_lt, UInt8.toNat_ofNat_of_lt' (show v < 256 by omega)]
      exact Nat.lt_succ_of_le h
    rw [List.singleton_append, decodeWithin, if_pos hascii,
      UInt8.toNat_ofNat_of_lt' (show v < 256 by omega), hchar rfl]
  split
  · have hlead := lead_two ⟨v / 64 % 32, by omega⟩ (show 2 ≤ v / 64 % 32 by omega)
    refine (decodeWithin_lead (by omega) (by omega) hlead ?_).trans
      (congrArg (· :: _) (hchar (v := v / 64 % 32 * 64 + v % 64) (by omega)))
    exact follow_ofNat_of_lt (by omega) _
  split
  · have hlead := lead_three ⟨v / 4096 % 16, by omega⟩
    refine (decodeWithin_lead (by omega) (by omega) hlead ?_).trans (congrArg (· :: _)
      (hchar (v := (v / 4096 % 16 * 64 + v / 64 % 64) * 64 + v % 64) (by omega)))
    refine (follow_ofNat (by omega) ?_ ?_ _).trans (follow_ofNat_of_lt (by omega) _)
    · rw [apply_ite UInt8.toNat]
      show (if v / 4096 % 16 = 0 then 160 else 128) ≤ v / 64 % 64 + 128
      split <;> omega
    · rw [apply_ite UInt8.toNat]
      show v / 64 % 64 + 128 ≤ if v / 4096 % 16 = 13 then 159 else 191
      split <;> omega
  · have hlead := lead_four ⟨v / 262144 % 8, by omega⟩
    refine (decodeWithin_lead (by omega) (by omega) hlead ?_).trans (congrArg (· :: _)
      (hchar (v := ((v / 262144 % 8 * 64 + v / 4096 % 64) * 64 + v / 64 % 64) * 64 + v % 64)
        (by omega)))
    refine (follow_ofNat (by omega) ?_ ?_ _).trans
      ((follow_ofNat_of_lt (by omega) _).trans (follow_ofNat_of_lt (by omega) _))
    · rw [apply_ite UInt8.toNat]
      show (if v / 262144 % 8 = 0 then 144 else 128) ≤ v / 4096 % 64 + 128
      split <;> omega
    · rw [apply_ite UInt8.toNat]
      show v / 4096 % 64 + 128 ≤ if v / 262144 % 8 = 4 then 143 else 191
      split <;> omega

/-! ### Texts -/

/-- Every character takes at least one byte, so the number of bytes suffices as a bound. -/
theorem decodeWithin_of_length_le {n : Nat} {bs : List UInt8} (h : bs.length ≤ n) :
    decodeWithin n bs = decodeWithin bs.length bs := by
  induction n using Nat.strongRecOn generalizing bs with
  | ind n ih =>
    cases bs with
    | nil => cases n <;> rfl
    | cons b bs =>
      obtain ⟨n, rfl⟩ : ∃ m, n = m + 1 := ⟨n - 1, by rw [List.length_cons] at h; omega⟩
      have hle : bs.length ≤ n := Nat.le_of_succ_le_succ h
      -- what is left over is no longer than what follows the first byte
      have hsame : ∀ {rest : List UInt8}, rest.length ≤ bs.length →
          decodeWithin n rest = decodeWithin bs.length rest := by
        intro rest hrest
        rw [ih n (Nat.lt_succ_self n) (Nat.le_trans hrest hle)]
        rcases Nat.lt_or_eq_of_le hle with hlt | heq
        · exact (ih bs.length (Nat.lt_succ_of_lt hlt) hrest).symm
        · rw [heq, ih n (Nat.lt_succ_self n) (heq ▸ hrest)]
      have hfollow : ∀ l : Lead, (follow l.following l.low l.high l.bits bs).2.length ≤ bs.length :=
        fun l => follow_length_le ..
      rw [List.length_cons, decodeWithin, decodeWithin]
      split
      · rw [hsame (Nat.le_refl _)]
      · split
        · rw [hsame (Nat.le_refl _)]
        · rename_i l _
          have hl := hfollow l
          split <;> rename_i hcode <;> rw [hcode] at hl <;> rw [hsame hl]

theorem decodeWithin_append (cs : List Char) {n : Nat} {bs : List UInt8}
    (h : (cs.flatMap String.utf8EncodeChar ++ bs).length ≤ n) :
    decodeWithin n (cs.flatMap String.utf8EncodeChar ++ bs) = cs ++ decodeWithin bs.length bs := by
  induction cs generalizing n with
  | nil => exact decodeWithin_of_length_le h
  | cons c cs ih =>
    have hpos : 0 < (String.utf8EncodeChar c).length :=
      String.length_utf8EncodeChar c ▸ c.utf8Size_pos
    rw [List.flatMap_cons, List.append_assoc, List.length_append] at h
    obtain ⟨n, rfl⟩ : ∃ m, n = m + 1 := ⟨n - 1, by omega⟩
    rw [List.flatMap_cons, List.append_assoc, decodeWithin_utf8EncodeChar, ih (by omega)]
    rfl

/-- **The bytes of a text** are read as that text, whatever follows. -/
theorem decode_bytes_append (s : String) (bs : List UInt8) :
    decode (bytes s ++ bs) = s ++ decode bs := by
  rw [← String.toList_inj, String.toList_append, decode, decode, bytes, String.toList_ofList,
    String.toList_ofList, decodeWithin_append s.toList (Nat.le_refl _)]

theorem decode_bytes (s : String) : decode (bytes s) = s := by
  have h := decode_bytes_append s []
  rwa [List.append_nil, show decode [] = "" from rfl, String.append_empty] at h

/-- **Encoding undoes decoding** exactly if the bytes are those of some text. -/
theorem bytes_decode_eq_iff (bs : List UInt8) : bytes (decode bs) = bs ↔ ∃ s, bytes s = bs := by
  refine ⟨fun h => ⟨_, h⟩, ?_⟩
  rintro ⟨s, rfl⟩
  rw [decode_bytes]

end Utf8
end RouteSolver
