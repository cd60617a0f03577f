/-
# All communities and all AS paths

The delimited communities are the texts `^m:n$` of two numbers of at most five digits
(`Delimited.acceptsBytes_allCommunities`), so every standard community is among them. The delimited
AS paths are the texts `^^n n … n$` of any numbers (`Delimited.acceptsBytes_allAsPaths`).
-/

import RouteSolver.Domain.Delimited
import RouteSolver.Proofs.Regex.Marked
import RouteSolver.Proofs.Route.Texts
import RouteSolver.Proofs.Text.Ascii

namespace RouteSolver
namespace Delimited

open Regex Decimal Utf8

/-! ### Numerals as bytes -/

/-- The byte of a decimal digit. -/
def IsDigitByte (b : UInt8) : Prop := 48 ≤ b ∧ b ≤ 57

theorem contains_anyDigit (b : UInt8) :
    (ByteSet.ofRanges [(48, 57)]).contains b = true ↔ IsDigitByte b := by
  rw [ByteSet.contains_ofRanges_singleton, Bool.and_eq_true, decide_eq_true_iff,
    decide_eq_true_iff]
  rfl

theorem isDigitByte_byteOf {c : Char} (h : c.isDigit = true) : IsDigitByte (byteOf c) := by
  have hc := isDigit_iff.1 h
  have hn : (byteOf c).toNat = c.toNat := toNat_byteOf (by omega)
  exact ⟨UInt8.le_iff_toNat_le.2 (hn ▸ hc.1), UInt8.le_iff_toNat_le.2 (hn ▸ hc.2)⟩

theorem exists_digit {b : UInt8} (h : IsDigitByte b) :
    ∃ c : Char, c.isDigit = true ∧ byteOf c = b := by
  have hlo : 48 ≤ b.toNat := UInt8.le_iff_toNat_le.1 h.1
  have hhi : b.toNat ≤ 57 := UInt8.le_iff_toNat_le.1 h.2
  have key : ∀ m : Fin 10, byteOf (digitChar m) = UInt8.ofNat (48 + m) := by decide
  refine ⟨digitChar (b.toNat - 48), digitChar_isDigit (by omega), ?_⟩
  rw [key ⟨b.toNat - 48, by omega⟩, show 48 + (b.toNat - 48) = b.toNat by omega, UInt8.ofNat_toNat]

theorem exists_digits {w : List UInt8} (h : ∀ b ∈ w, IsDigitByte b) :
    ∃ cs : List Char, cs.all Char.isDigit = true ∧ ascii cs = w := by
  induction w with
  | nil => exact ⟨[], rfl, rfl⟩
  | cons b w ih =>
    obtain ⟨hb, hw⟩ := List.forall_mem_cons.1 h
    obtain ⟨c, hc, rfl⟩ := exists_digit hb
    obtain ⟨cs, hcs, rfl⟩ := ih hw
    exact ⟨c :: cs, by rw [List.all_cons, hc, hcs]; rfl, rfl⟩

theorem isAscii_digits (n : Nat) : IsAscii (digits n) :=
  isAscii_of_isDigit fun _ hc => isDigit_of_mem_digits hc

/-- Some other digit than zero and more digits after it are a numeral. -/
theorem exists_digits_cons {b : UInt8} {w : List UInt8} (hb : 49 ≤ b ∧ b ≤ 57)
    (hw : ∀ c ∈ w, IsDigitByte c) :
    ∃ n, b :: w = ascii (digits n) ∧ (digits n).length = w.length + 1 := by
  obtain ⟨c, hc, rfl⟩ := exists_digit ⟨UInt8.le_trans (by decide) hb.1, hb.2⟩
  obtain ⟨cs, hcs, rfl⟩ := exists_digits hw
  have hne : c ≠ '0' := by
    rintro rfl
    exact absurd hb.1 (by decide)
  have hnum : IsNumeral (c :: cs) :=
    ⟨List.cons_ne_nil c cs, by rw [List.all_cons, hc, hcs]; rfl,
      fun h => absurd (Option.some.inj h) hne⟩
  refine ⟨value (c :: cs), by rw [digits_value hnum]; rfl, ?_⟩
  rw [digits_value hnum, ascii, List.length_map, List.length_cons]

/-- A numeral is a zero, or begins with some other digit. -/
theorem digits_eq_zero_or_exists (n : Nat) : digits n = ['0'] ∨ ∃ b w,
    ascii (digits n) = b :: w ∧ (49 ≤ b ∧ b ≤ 57) ∧ ∀ c ∈ w, IsDigitByte c := by
  obtain ⟨hne, hall, hz⟩ := isNumeral_digits n
  obtain ⟨c, cs, hd⟩ := List.exists_cons_of_ne_nil hne
  rw [hd] at hall hz ⊢
  rw [List.all_cons, Bool.and_eq_true, List.all_eq_true] at hall
  by_cases hc0 : c = '0'
  · exact .inl (hz (congrArg some hc0))
  · have hc := isDigit_iff.1 hall.1
    have hn : (byteOf c).toNat = c.toNat := toNat_byteOf (by omega)
    have hne48 : c.toNat ≠ 48 := fun h => hc0 (Char.toNat_inj.1 h)
    have hge : 49 ≤ (byteOf c).toNat := by omega
    refine .inr ⟨byteOf c, ascii cs, rfl,
      ⟨UInt8.le_iff_toNat_le.2 hge, (isDigitByte_byteOf hall.1).2⟩, fun b hb => ?_⟩
    obtain ⟨d, hd, rfl⟩ := List.mem_map.1 hb
    exact isDigitByte_byteOf (hall.2 d hd)

/-- **A numeral in bytes** is a zero, or some other digit and more digits after it. -/
theorem means_numeral {more : Expr} {p : Nat → Prop} (hp : p 0)
    (hmore : more.Means fun w => p w.length ∧ ∀ b ∈ w, IsDigitByte b) :
    (numeral more).Means fun w => ∃ n, w = ascii (digits n) ∧ p ((digits n).length - 1) := by
  have hfirst : (anyOf [(49, 57)]).Means fun w => ∃ b, (49 ≤ b ∧ b ≤ 57) ∧ w = [b] :=
    (Expr.Means.byte _).congr fun w => exists_congr fun b => and_congr_left fun _ => by
      rw [ByteSet.contains_ofRanges_singleton, Bool.and_eq_true, decide_eq_true_iff,
        decide_eq_true_iff]
  refine ((Expr.Means.literal _).alt (hfirst.cat hmore)).congr fun w => ?_
  constructor
  · rintro (rfl | ⟨u, v, rfl, ⟨b, hb, rfl⟩, hlen, hv⟩)
    · have hzero : digits 0 = ['0'] := by rw [digits_of_lt (by decide)]; rfl
      exact ⟨0, by rw [hzero]; rfl, by rw [hzero]; exact hp⟩
    · obtain ⟨n, hn, hdigits⟩ := exists_digits_cons hb hv
      exact ⟨n, hn, by rwa [hdigits, Nat.add_sub_cancel]⟩
  · rintro ⟨n, rfl, hlen⟩
    rcases digits_eq_zero_or_exists n with hzero | ⟨b, v, hbv, hb, hv⟩
    · exact .inl (congrArg ascii hzero)
    · have hlength : (digits n).length - 1 = v.length := by
        rw [← List.length_map (f := byteOf), show (digits n).map byteOf = b :: v from hbv,
          List.length_cons, Nat.add_sub_cancel]
      exact .inr ⟨[b], v, hbv, ⟨b, hb, rfl⟩, hlength ▸ hlen, hv⟩

/-- One half of a community is a number of at most five digits. -/
theorem means_half : half.Means fun w => ∃ n, n < 100000 ∧ w = ascii (digits n) := by
  have hmore : ((anyOf [(48, 57)]).atMost 4).Means fun w =>
      w.length ≤ 4 ∧ ∀ b ∈ w, IsDigitByte b :=
    (Expr.Means.atMost_byte _ 4).congr fun w => and_congr_right fun _ =>
      forall₂_congr fun b _ => contains_anyDigit b
  refine (means_numeral (p := (· ≤ 4)) (Nat.zero_le 4) hmore).congr fun w =>
    exists_congr fun n => ?_
  have hlen := length_digits_le_iff (n := n) (k := 5) (by decide)
  have hpos := List.length_pos_iff.2 (digits_ne_nil n)
  rw [and_comm]
  refine and_congr_left fun _ => ?_
  rw [show (100000 : Nat) = 10 ^ 5 from rfl, ← hlen]
  omega

theorem means_asNumber : asNumber.Means fun w => ∃ n, w = ascii (digits n) := by
  have hmore : (Expr.star (anyOf [(48, 57)])).Means fun w => True ∧ ∀ b ∈ w, IsDigitByte b :=
    (Expr.Means.star_byte _).congr fun w => (forall₂_congr fun b _ => contains_anyDigit b).trans
      (and_iff_right trivial).symm
  exact (means_numeral (p := fun _ => True) trivial hmore).congr fun w =>
    exists_congr fun n => and_iff_left trivial

/-! ### Communities -/

/-- The characters of a delimited community. -/
def communityChars (m n : Nat) : List Char := '^' :: (colonNumbers m n ++ ['$'])

theorem isAscii_communityChars (m n : Nat) : IsAscii (communityChars m n) := by
  have hcolon : IsAscii (':' :: digits n) := List.forall_mem_cons.2 ⟨by decide, isAscii_digits n⟩
  exact List.forall_mem_cons.2 ⟨by decide, ((isAscii_digits m).append hcolon).append
    (isAscii_singleton (by decide))⟩

theorem ascii_communityChars (m n : Nat) : ascii (communityChars m n) =
    bytes communityStart ++ (ascii (digits m) ++ (bytes ":" ++ (ascii (digits n) ++
      bytes endMark))) := by
  have hstart : bytes communityStart = ascii ['^'] := by decide
  have hcolon : bytes ":" = ascii [':'] := by decide
  have hend : bytes endMark = ascii ['$'] := by decide
  rw [hstart, hcolon, hend]
  simp [communityChars, colonNumbers, ascii]

theorem means_communityExpr : communityExpr.Means fun w =>
    ∃ m n, m < 100000 ∧ n < 100000 ∧ w = ascii (communityChars m n) := by
  have hnil : (Expr.seq []).Means (· = []) := .empty
  refine (Expr.Means.seq_cons (.literal _) (means_half.seq_cons (.seq_cons (.literal _)
    (means_half.seq_cons (.seq_cons (.literal _) hnil))))).congr fun w => ?_
  constructor
  · rintro ⟨_, _, rfl, rfl, _, _, rfl, ⟨m, hm, rfl⟩, _, _, rfl, rfl, _, _, rfl, ⟨n, hn, rfl⟩, _, _,
      rfl, rfl, rfl⟩
    rw [List.append_nil]
    exact ⟨m, n, hm, hn, (ascii_communityChars m n).symm⟩
  · rintro ⟨m, n, hm, hn, rfl⟩
    refine ⟨_, _, ascii_communityChars m n, rfl, _, _, rfl, ⟨m, hm, rfl⟩, _, _, rfl, rfl, _, _, rfl,
      ⟨n, hn, rfl⟩, _, _, (List.append_nil _).symm, rfl, rfl⟩

theorem valid_allCommunities : allCommunities.Valid := Automaton.valid_ofExpr _

/-- **The delimited communities.** -/
theorem acceptsBytes_allCommunities (w : List UInt8) : allCommunities.acceptsBytes w = true ↔
    ∃ m n, m < 100000 ∧ n < 100000 ∧ w = ascii (communityChars m n) := by
  rw [allCommunities, Automaton.acceptsBytes_ofExpr]
  exact means_communityExpr.language_iff w

/-! ### AS paths -/

/-- The characters of some numbers with spaces between them. -/
def spacedNumbers : List Nat → List Char
  | [] => []
  | n :: ns => digits n ++ ns.flatMap fun n => ' ' :: digits n

/-- The characters of a delimited AS path. -/
def asPathChars (ns : List Nat) : List Char := '^' :: '^' :: (spacedNumbers ns ++ ['$'])

theorem isAscii_spacedNumbers (ns : List Nat) : IsAscii (spacedNumbers ns) := by
  cases ns with
  | nil => exact fun c hc => absurd hc List.not_mem_nil
  | cons n ns =>
    refine (isAscii_digits n).append fun c hc => ?_
    obtain ⟨m, -, hm⟩ := List.mem_flatMap.1 hc
    rcases List.mem_cons.1 hm with rfl | hm
    · decide
    · exact isAscii_digits m c hm

theorem isAscii_asPathChars (ns : List Nat) : IsAscii (asPathChars ns) :=
  List.forall_mem_cons.2 ⟨by decide, List.forall_mem_cons.2 ⟨by decide,
    (isAscii_spacedNumbers ns).append (isAscii_singleton (by decide))⟩⟩

theorem ascii_asPathChars (ns : List Nat) : ascii (asPathChars ns) =
    bytes asPathStart ++ (ascii (spacedNumbers ns) ++ bytes endMark) := by
  have hstart : bytes asPathStart = ascii ['^', '^'] := by decide
  have hend : bytes endMark = ascii ['$'] := by decide
  rw [hstart, hend]
  simp [asPathChars, ascii]

theorem ascii_spacedNumbers_cons (n : Nat) (ns : List Nat) : ascii (spacedNumbers (n :: ns)) =
    ascii (digits n) ++ (ns.map fun n => bytes " " ++ ascii (digits n)).flatten := by
  have hspace : bytes " " = ascii [' '] := by decide
  rw [hspace, spacedNumbers, ascii, List.map_append, List.map_flatMap, List.flatMap_def]
  rfl

theorem means_asPathExpr : asPathExpr.Means fun w => ∃ ns, w = ascii (asPathChars ns) := by
  have hnil : (Expr.seq []).Means (· = []) := .empty
  have hbody := (means_asNumber.cat (.star (.cat (.literal (bytes " ")) means_asNumber))).optional
  have hbody' : (Expr.optional (.cat asNumber (.star (.cat (exactText " ") asNumber)))).Means
      fun w => ∃ ns, w = ascii (spacedNumbers ns) := by
    refine hbody.congr fun w => ?_
    constructor
    · rintro (rfl | ⟨_, _, rfl, ⟨n, rfl⟩, ws, rfl, hws⟩)
      · exact ⟨[], rfl⟩
      · -- every repetition is a space and one more number
        have hns : ∃ ns : List Nat, ws = ns.map fun n => bytes " " ++ ascii (digits n) := by
          clear hbody
          induction ws with
          | nil => exact ⟨[], rfl⟩
          | cons u ws ih =>
            obtain ⟨hu, hrest⟩ := List.forall_mem_cons.1 hws
            obtain ⟨_, _, rfl, rfl, m, rfl⟩ := hu
            obtain ⟨ns, rfl⟩ := ih hrest
            exact ⟨m :: ns, rfl⟩
        obtain ⟨ns, rfl⟩ := hns
        exact ⟨n :: ns, (ascii_spacedNumbers_cons n ns).symm⟩
    · rintro ⟨ns, rfl⟩
      cases ns with
      | nil => exact .inl rfl
      | cons n ns =>
        refine .inr ⟨_, _, ascii_spacedNumbers_cons n ns, ⟨n, rfl⟩, _, rfl, fun u hu => ?_⟩
        obtain ⟨m, -, rfl⟩ := List.mem_map.1 hu
        exact ⟨_, _, rfl, rfl, m, rfl⟩
  refine (Expr.Means.seq_cons (.literal _) (hbody'.seq_cons
    (.seq_cons (.literal _) hnil))).congr fun w => ?_
  constructor
  · rintro ⟨_, _, rfl, rfl, _, _, rfl, ⟨ns, rfl⟩, _, _, rfl, rfl, rfl⟩
    rw [List.append_nil]
    exact ⟨ns, (ascii_asPathChars ns).symm⟩
  · rintro ⟨ns, rfl⟩
    exact ⟨_, _, ascii_asPathChars ns, rfl, _, _, rfl, ⟨ns, rfl⟩, _, _, (List.append_nil _).symm,
      rfl, rfl⟩

theorem valid_allAsPaths : allAsPaths.Valid := Automaton.valid_ofExpr _

/-- **The delimited AS paths.** -/
theorem acceptsBytes_allAsPaths (w : List UInt8) :
    allAsPaths.acceptsBytes w = true ↔ ∃ ns, w = ascii (asPathChars ns) := by
  rw [allAsPaths, Automaton.acceptsBytes_ofExpr]
  exact means_asPathExpr.language_iff w

/-! ### Delimited texts of values -/

/-- A community between its marks. -/
def communityText (c : Community) : String := communityStart ++ c.text ++ endMark

/-- An AS path between its marks. -/
def asPathText (p : AsPath) : String := asPathStart ++ p.text ++ endMark

/-- **A community is told** by its text between marks. -/
theorem communityText_injective {b c : Community} (h : communityText b = communityText c) :
    b = c := by
  rw [communityText, communityText, String.append_left_inj, String.append_right_inj] at h
  exact Community.text_injective h

theorem toList_ofCommunity (c : StandardCommunity) :
    (ofCommunity c).toList = communityChars c.high.toNat c.low.toNat := by
  rw [ofCommunity, String.toList_append, String.toList_append, StandardCommunity.toList_text]
  rfl

theorem bytes_ofCommunity (c : StandardCommunity) :
    bytes (ofCommunity c) = ascii (communityChars c.high.toNat c.low.toNat) := by
  have h := toList_ofCommunity c
  rw [bytes_eq_ascii (h ▸ isAscii_communityChars _ _), h]

/-- **Every standard community** is one of all communities. -/
theorem accepts_ofCommunity (c : StandardCommunity) :
    allCommunities.accepts (ofCommunity c) = true := by
  rw [Automaton.accepts, acceptsBytes_allCommunities]
  have hhigh := c.high.toNat_lt
  have hlow := c.low.toNat_lt
  exact ⟨_, _, by omega, by omega, bytes_ofCommunity c⟩

theorem toList_text_ofNumbers (ns : List UInt32) :
    (AsPath.ofNumbers ns).text.toList = spacedNumbers (ns.map UInt32.toNat) := by
  rw [AsPath.text_ofNumbers]
  cases ns with
  | nil => rfl
  | cons n ns =>
    rw [List.map_cons, Text.toList_joinWith, toList_decimalText, List.map_cons, spacedNumbers,
      List.flatMap_map, List.flatMap_map]
    refine congrArg _ (List.flatMap_congr fun m _ => ?_)
    rw [toList_decimalText]
    rfl

theorem toList_asPathText (ns : List UInt32) :
    (asPathText (.ofNumbers ns)).toList = asPathChars (ns.map UInt32.toNat) := by
  rw [asPathText, String.toList_append, String.toList_append, toList_text_ofNumbers]
  rfl

theorem bytes_asPathText (ns : List UInt32) :
    bytes (asPathText (.ofNumbers ns)) = ascii (asPathChars (ns.map UInt32.toNat)) := by
  have h := toList_asPathText ns
  rw [bytes_eq_ascii (h ▸ isAscii_asPathChars _), h]

/-- **Every path of single AS numbers** is one of all paths. -/
theorem accepts_asPathText (ns : List UInt32) :
    allAsPaths.accepts (asPathText (.ofNumbers ns)) = true := by
  rw [Automaton.accepts, acceptsBytes_allAsPaths]
  exact ⟨_, bytes_asPathText ns⟩

end Delimited
end RouteSolver
