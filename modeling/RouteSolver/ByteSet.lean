/-
# Sets of bytes

A set of bytes is a 256-bit mask: byte `b` is in the set when bit `b` of the mask is one. The
Boolean operations are those of the masks, and `foldCase` closes a set under exchanging small and
capital ASCII letters.
-/

namespace RouteSolver

/-- A set of bytes as a bit mask. -/
structure ByteSet where
  /-- Bit `b` says whether byte `b` is a member. -/
  mask : Nat
deriving DecidableEq, Hashable, Repr, Inhabited

namespace ByteSet

/-- The set without members. -/
def empty : ByteSet := ⟨0⟩

/-- The set of all bytes. -/
def full : ByteSet := ⟨Nat.pow 2 256 - 1⟩

/-- Whether a byte is a member. -/
def contains (s : ByteSet) (b : UInt8) : Bool := s.mask.testBit b.toNat

/-- The bytes from `lo` to `hi`, both included. -/
def range (lo hi : UInt8) : ByteSet :=
  if lo ≤ hi then ⟨(Nat.pow 2 (hi.toNat - lo.toNat + 1) - 1) <<< lo.toNat⟩ else empty

/-- The set of one byte. -/
def single (b : UInt8) : ByteSet := ⟨Nat.pow 2 b.toNat⟩

/-- Members of either set. -/
def union (s t : ByteSet) : ByteSet := ⟨s.mask ||| t.mask⟩

/-- Members of both sets. -/
def inter (s t : ByteSet) : ByteSet := ⟨s.mask &&& t.mask⟩

/-- Members of exactly one of the sets. -/
def symmDiff (s t : ByteSet) : ByteSet := ⟨s.mask ^^^ t.mask⟩

/-- All bytes that are not members. -/
def compl (s : ByteSet) : ByteSet := ⟨s.mask ^^^ full.mask⟩

/-- Members of the first set that are not members of the second. -/
def diff (s t : ByteSet) : ByteSet := s.inter t.compl

/-- The union of a list of ranges. -/
def ofRanges (ranges : List (UInt8 × UInt8)) : ByteSet :=
  ranges.foldl (fun s r => s.union (range r.1 r.2)) empty

/-- Capital ASCII letters. -/
def capitals : ByteSet := range 65 90

/-- Small ASCII letters. -/
def smalls : ByteSet := range 97 122

/-- The set together with the other case of each of its ASCII letters; the two cases of a letter
are 32 apart. -/
def foldCase (s : ByteSet) : ByteSet :=
  (s.union ⟨(s.inter capitals).mask <<< 32⟩).union ⟨(s.inter smalls).mask >>> 32⟩

theorem contains_union (s t : ByteSet) (b : UInt8) :
    (s.union t).contains b = (s.contains b || t.contains b) := by
  simp [contains, union]

theorem contains_inter (s t : ByteSet) (b : UInt8) :
    (s.inter t).contains b = (s.contains b && t.contains b) := by
  simp [contains, inter]

theorem contains_symmDiff (s t : ByteSet) (b : UInt8) :
    (s.symmDiff t).contains b = (s.contains b ^^ t.contains b) := by
  simp [contains, symmDiff]

theorem contains_full (b : UInt8) : full.contains b = true := by
  have h : b.toNat < 256 := b.toNat_lt
  show (2 ^ 256 - 1).testBit b.toNat = true
  rw [Nat.testBit_two_pow_sub_one]
  exact decide_eq_true h

theorem contains_compl (s : ByteSet) (b : UInt8) : s.compl.contains b = !s.contains b := by
  have h := contains_full b
  simp only [contains] at h
  simp [contains, compl, h]

theorem contains_diff (s t : ByteSet) (b : UInt8) :
    (s.diff t).contains b = (s.contains b && !t.contains b) := by
  rw [diff, contains_inter, contains_compl]

theorem contains_empty (b : UInt8) : empty.contains b = false := by
  simp [contains, empty]

end ByteSet
end RouteSolver
