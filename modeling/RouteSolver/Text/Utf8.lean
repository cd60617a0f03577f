/-
# UTF-8

`bytes` writes a text as bytes. `decode` reads bytes back and never fails: a well-formed sequence
becomes its character, and every longest run of bytes that begins a well-formed sequence without
finishing it becomes one replacement character, as does every byte that can begin none.
-/

namespace RouteSolver
namespace Utf8

/-- The bytes of a text. -/
def bytes (s : String) : List UInt8 := s.toList.flatMap String.utf8EncodeChar

/-- What stands for bytes that are no character. -/
def replacement : Char := '\ufffd'

/-- What a first byte promises: the leading bits of the code point, how many bytes follow, and the
bounds of the next one. The bounds exclude overlong forms, surrogates and numbers past the last
code point. -/
structure Lead where
  /-- The leading bits of the code point. -/
  bits : Nat
  /-- How many bytes follow. -/
  following : Nat
  /-- Least admissible second byte. -/
  low : UInt8
  /-- Greatest admissible second byte. -/
  high : UInt8

/-- Reads a first byte above the ASCII range; `none` if no sequence begins with it. -/
def lead (b : UInt8) : Option Lead :=
  if b < 0xC2 then none
  else if b ≤ 0xDF then some ⟨b.toNat - 0xC0, 1, 0x80, 0xBF⟩
  else if b = 0xE0 then some ⟨0, 2, 0xA0, 0xBF⟩
  else if b = 0xED then some ⟨0xD, 2, 0x80, 0x9F⟩
  else if b ≤ 0xEF then some ⟨b.toNat - 0xE0, 2, 0x80, 0xBF⟩
  else if b = 0xF0 then some ⟨0, 3, 0x90, 0xBF⟩
  else if b ≤ 0xF3 then some ⟨b.toNat - 0xF0, 3, 0x80, 0xBF⟩
  else if b = 0xF4 then some ⟨4, 3, 0x80, 0x8F⟩
  else none

/-- Reads `n` following bytes, the first of them within bounds: the code point, unless a byte is
missing or out of bounds, and the bytes left over. -/
def follow : Nat → UInt8 → UInt8 → Nat → List UInt8 → Option Nat × List UInt8
  | 0, _, _, acc, bs => (some acc, bs)
  | _ + 1, _, _, _, [] => (none, [])
  | n + 1, low, high, acc, b :: bs =>
    if low ≤ b ∧ b ≤ high then follow n 0x80 0xBF (acc * 64 + (b.toNat - 0x80)) bs
    else (none, b :: bs)

theorem follow_length_le (n : Nat) (low high : UInt8) (acc : Nat) (bs : List UInt8) :
    (follow n low high acc bs).2.length ≤ bs.length := by
  induction n generalizing low high acc bs with
  | zero => simp [follow]
  | succ n ih =>
    cases bs with
    | nil => simp [follow]
    | cons b bs =>
      simp only [follow]
      split
      · exact Nat.le_succ_of_le (ih _ _ _ _)
      · exact Nat.le_refl _

/-- `decode` with a bound on the number of characters. -/
def decodeWithin : Nat → List UInt8 → List Char
  | 0, _ => []
  | _ + 1, [] => []
  | bound + 1, b :: bs =>
    if b < 0x80 then Char.ofNat b.toNat :: decodeWithin bound bs
    else
      match lead b with
      | none => replacement :: decodeWithin bound bs
      | some l =>
        match follow l.following l.low l.high l.bits bs with
        | (some code, rest) => Char.ofNat code :: decodeWithin bound rest
        | (none, rest) => replacement :: decodeWithin bound rest

/-- The text of some bytes, with a replacement character for what is not well formed. Every
character takes at least one byte, so the number of bytes bounds the number of characters. -/
def decode (bs : List UInt8) : String := String.ofList (decodeWithin bs.length bs)

/-- Whether some bytes are the bytes of a text. -/
def isWellFormed (bs : List UInt8) : Bool := bytes (decode bs) == bs

end Utf8
end RouteSolver
