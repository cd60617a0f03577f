/-
# Texts in ASCII

A text is determined by its bytes (`Utf8.bytes_injective`). A character below 128 is one byte, so
the bytes of an ASCII text are as many as its characters, and decoding gives it back
(`Utf8.decode_ascii`).
-/

import RouteSolver.Text.Utf8

namespace RouteSolver
namespace Utf8

/-- Only characters below 128. -/
abbrev IsAscii (cs : List Char) : Prop := ∀ c ∈ cs, c.toNat < 128

/-- The byte of an ASCII character. -/
def byteOf (c : Char) : UInt8 := UInt8.ofNat c.toNat

/-- The bytes of some ASCII characters. -/
def ascii (cs : List Char) : List UInt8 := cs.map byteOf

theorem toNat_byteOf {c : Char} (h : c.toNat < 128) : (byteOf c).toNat = c.toNat :=
  UInt8.toNat_ofNat_of_lt' (Nat.lt_trans h (by decide))

theorem byteOf_inj {c d : Char} (hc : c.toNat < 128) (hd : d.toNat < 128) :
    byteOf c = byteOf d ↔ c = d := by
  refine ⟨fun h => ?_, congrArg byteOf⟩
  have h := congrArg UInt8.toNat h
  rw [toNat_byteOf hc, toNat_byteOf hd] at h
  exact Char.toNat_inj.1 h

theorem utf8EncodeChar_of_ascii {c : Char} (h : c.toNat < 128) :
    String.utf8EncodeChar c = [byteOf c] := by
  rw [String.utf8EncodeChar]
  exact if_pos (Nat.le_of_lt_succ h)

/-- **The bytes of a text** determine it. -/
theorem bytes_injective {s t : String} (h : bytes s = bytes t) : s = t := by
  have h : s.toList.utf8Encode = t.toList.utf8Encode := congrArg List.toByteArray h
  rw [String.utf8Encode_toList, String.utf8Encode_toList] at h
  exact String.toByteArray_inj.1 h

theorem bytes_eq_ascii {s : String} (h : IsAscii s.toList) : bytes s = ascii s.toList := by
  rw [bytes, ascii]
  generalize s.toList = cs at h
  induction cs with
  | nil => rfl
  | cons c cs ih =>
    rw [List.flatMap_cons, utf8EncodeChar_of_ascii (h c List.mem_cons_self),
      ih fun d hd => h d (List.mem_cons_of_mem _ hd)]
    rfl

theorem decodeWithin_ascii {cs : List Char} (h : IsAscii cs) {n : Nat} (hn : cs.length ≤ n) :
    decodeWithin n (ascii cs) = cs := by
  induction cs generalizing n with
  | nil => cases n <;> rfl
  | cons c cs ih =>
    have hc := h c List.mem_cons_self
    obtain ⟨n, rfl⟩ : ∃ m, n = m + 1 := ⟨n - 1, by rw [List.length_cons] at hn; omega⟩
    have hlt : byteOf c < 0x80 := by
      rw [UInt8.lt_iff_toNat_lt, toNat_byteOf hc]
      exact hc
    rw [ascii, List.map_cons, decodeWithin, if_pos hlt, toNat_byteOf hc, Char.ofNat_toNat]
    exact congrArg (c :: ·) (ih (fun d hd => h d (List.mem_cons_of_mem _ hd))
      (Nat.le_of_succ_le_succ hn))

/-- **Decoding the bytes** of an ASCII text gives it back. -/
theorem decode_ascii {cs : List Char} (h : IsAscii cs) :
    decode (ascii cs) = String.ofList cs := by
  have hlen : cs.length ≤ (ascii cs).length := Nat.le_of_eq (List.length_map ..).symm
  rw [decode, decodeWithin_ascii h hlen]

theorem ascii_injective {cs ds : List Char} (hc : IsAscii cs) (hd : IsAscii ds)
    (h : ascii cs = ascii ds) : cs = ds := by
  have := congrArg decode h
  rw [decode_ascii hc, decode_ascii hd] at this
  exact String.ofList_injective this

theorem isAscii_singleton {c : Char} (h : c.toNat < 128) : IsAscii [c] :=
  List.forall_mem_singleton.2 h

theorem IsAscii.append {cs ds : List Char} (hc : IsAscii cs) (hd : IsAscii ds) :
    IsAscii (cs ++ ds) := fun c h => (List.mem_append.1 h).elim (hc c) (hd c)

theorem isAscii_of_isDigit {cs : List Char} (h : ∀ c ∈ cs, c.isDigit = true) : IsAscii cs := by
  intro c hc
  have := h c hc
  rw [Char.isDigit, Bool.and_eq_true, decide_eq_true_iff, decide_eq_true_iff] at this
  exact Nat.lt_of_le_of_lt (UInt32.le_iff_toNat_le.1 this.2) (by decide)

end Utf8
end RouteSolver
