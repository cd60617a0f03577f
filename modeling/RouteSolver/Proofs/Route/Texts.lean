/-
# Communities and AS paths read back

Every community is read back from its text (`Community.read?_text`), so its text tells which it is.
Two numbers with a colon between them write a standard community or none
(`Community.read?_numbers`). A path of single AS numbers is written as its numbers
(`AsPath.text_ofNumbers`).
-/

import RouteSolver.AsPath
import RouteSolver.Community
import RouteSolver.Proofs.Text.Decimal
import RouteSolver.Proofs.Text.Split

namespace RouteSolver

open Decimal

theorem toList_decimalText (n : Nat) : (Decimal.text n).toList = digits n := String.toList_ofList

theorem word16?_digits (n : UInt16) : word16? (digits n.toNat) = some n := by
  rw [word16?, readUpTo?_digits (Nat.le_of_lt_succ n.toNat_lt), Option.map_some,
    UInt16.ofNat_toNat]

theorem word32?_digits (n : UInt32) : word32? (digits n.toNat) = some n := by
  rw [word32?, readUpTo?_digits (Nat.le_of_lt_succ n.toNat_lt), Option.map_some,
    UInt32.ofNat_toNat]

/-- The characters of two numbers with a colon between them. -/
def colonNumbers (m n : Nat) : List Char := digits m ++ ':' :: digits n

theorem colon_not_mem_digits (n : Nat) : ':' ∉ digits n := not_mem_digits (by decide) n

namespace StandardCommunity

theorem toList_text (c : StandardCommunity) :
    c.text.toList = colonNumbers c.high.toNat c.low.toNat := by
  rw [text, String.toList_append, String.toList_append, toList_decimalText, toList_decimalText,
    List.append_assoc]
  rfl

theorem read?_colonNumbers (m n : Nat) : read? (colonNumbers m n) =
    (word16? (digits m)).bind fun high => (word16? (digits n)).map fun low => ⟨high, low⟩ := by
  rw [read?, colonNumbers, Text.cut_append (colon_not_mem_digits m)]
  simp only [Option.bind_eq_bind, Option.bind_some, Option.map_eq_bind]
  rfl

theorem read?_text (c : StandardCommunity) : read? c.text.toList = some c := by
  rw [toList_text, read?_colonNumbers, word16?_digits, word16?_digits]
  rfl

/-- A text that begins with a word writes no standard community. -/
theorem read?_of_word {word rest : List Char} (hcolon : ':' ∉ word) {c : Char} (hc : c ∈ word)
    (hdigit : c.isDigit = false) : read? (word ++ ':' :: rest) = none := by
  rw [read?, Text.cut_append hcolon]
  have : word16? word = none := by rw [word16?, readUpTo?_of_mem hc hdigit, Option.map_none]
  simp [this]

end StandardCommunity

namespace ExtendedCommunity

theorem toList_text (c : ExtendedCommunity) : c.text.toList =
    c.kind.keyword.toList ++ ':' :: (digits c.administrator.toNat ++ ':' ::
      digits c.assigned.toNat) := by
  simp only [text, String.toList_append, toList_decimalText, List.append_assoc]
  rfl

theorem keyword_spec (k : ExtendedKind) : ':' ∉ k.keyword.toList ∧
    (∃ c ∈ k.keyword.toList, c.isDigit = false) ∧
    ExtendedKind.ofKeyword? k.keyword.toList = some k := by
  have hletter : k.keyword.toList.any (!·.isDigit) = true := by cases k <;> decide
  have hkeyword : ':' ∉ k.keyword.toList ∧ ExtendedKind.ofKeyword? k.keyword.toList = some k := by
    cases k <;> decide
  obtain ⟨c, hc, hdigit⟩ := List.any_eq_true.1 hletter
  rw [Bool.not_eq_true'] at hdigit
  exact ⟨hkeyword.1, ⟨c, hc, hdigit⟩, hkeyword.2⟩

theorem read?_text (c : ExtendedCommunity) : read? c.text.toList = some c := by
  obtain ⟨hcolon, -, hkind⟩ := keyword_spec c.kind
  rw [toList_text, read?, Text.cut_append hcolon]
  simp only [Option.bind_eq_bind, Option.bind_some, hkind,
    Text.cut_append (colon_not_mem_digits _), word32?_digits]
  exact dif_pos c.fits

/-- Two numbers with a colon between them write no extended community. -/
theorem read?_colonNumbers (m n : Nat) : read? (colonNumbers m n) = none := by
  have hkind : ExtendedKind.ofKeyword? (digits m) = none := by
    have hne : ∀ word : List Char, 't' ∈ word ∨ 'o' ∈ word → digits m ≠ word := by
      rintro word (hw | hw) rfl
      · exact not_mem_digits (by decide) m hw
      · exact not_mem_digits (by decide) m hw
    rw [ExtendedKind.ofKeyword?, if_neg (hne _ (by decide)), if_neg (hne _ (by decide))]
  rw [read?, colonNumbers, Text.cut_append (colon_not_mem_digits m)]
  simp only [Option.bind_eq_bind, Option.bind_some, hkind, Option.bind_none]

end ExtendedCommunity

namespace LargeCommunity

theorem toList_text (c : LargeCommunity) : c.text.toList =
    keyword.toList ++ (digits c.administrator.toNat ++
      [digits c.first.toNat, digits c.second.toNat].flatMap (':' :: ·)) := by
  simp only [text, String.toList_append, toList_decimalText, List.append_assoc, List.flatMap_cons,
    List.flatMap_nil, List.append_nil]
  rfl

theorem read?_text (c : LargeCommunity) : read? c.text.toList = some c := by
  have hsplit : Text.split ':' (digits c.administrator.toNat ++
      [digits c.first.toNat, digits c.second.toNat].flatMap (':' :: ·)) =
        [digits c.administrator.toNat, digits c.first.toNat, digits c.second.toNat] :=
    Text.split_join (colon_not_mem_digits _) fun p hp => by
      rcases List.mem_cons.1 hp with rfl | hp
      · exact colon_not_mem_digits _
      · exact List.mem_singleton.1 hp ▸ colon_not_mem_digits _
  rw [toList_text, read?, Text.dropStart?_append, Option.getD_some, hsplit]
  simp only [word32?_digits]
  rfl

/-- Two numbers with a colon between them write no large community. -/
theorem read?_colonNumbers (m n : Nat) : read? (colonNumbers m n) = none := by
  have hstart : Text.dropStart? keyword.toList (colonNumbers m n) = none := by
    rw [Text.dropStart?, if_neg]
    rintro hpre
    obtain ⟨rest, hrest⟩ := List.isPrefixOf_iff_prefix.1 hpre
    have hl : 'l' ∈ colonNumbers m n := hrest ▸ List.mem_append_left _ (by decide)
    rw [colonNumbers, List.mem_append, List.mem_cons] at hl
    rcases hl with hl | hl | hl
    · exact not_mem_digits (by decide) m hl
    · exact absurd hl (by decide)
    · exact not_mem_digits (by decide) n hl
  have hsplit : Text.split ':' (colonNumbers m n) = [digits m, digits n] := by
    rw [colonNumbers, Text.split_append (colon_not_mem_digits m),
      Text.split_of_not_mem (colon_not_mem_digits n)]
  rw [read?, hstart, Option.getD_none, hsplit]

end LargeCommunity

namespace Community

theorem standardRead_extendedText (c : ExtendedCommunity) :
    StandardCommunity.read? c.text.toList = none := by
  obtain ⟨hcolon, ⟨d, hd, hdigit⟩, -⟩ := ExtendedCommunity.keyword_spec c.kind
  rw [ExtendedCommunity.toList_text]
  exact StandardCommunity.read?_of_word hcolon hd hdigit

theorem read_largeText (c : LargeCommunity) : StandardCommunity.read? c.text.toList = none ∧
    ExtendedCommunity.read? c.text.toList = none := by
  have hkey : LargeCommunity.keyword.toList = "large".toList ++ [':'] := by decide
  have hcolon : ':' ∉ "large".toList := by decide
  rw [LargeCommunity.toList_text, hkey, List.append_assoc, List.singleton_append]
  refine ⟨StandardCommunity.read?_of_word hcolon (c := 'l') (by decide) (by decide), ?_⟩
  rw [ExtendedCommunity.read?, Text.cut_append hcolon]
  rfl

/-- **A community is read back** from its text. -/
theorem read?_text (c : Community) : read? c.text = some c := by
  cases c with
  | standard c => rw [read?, text, StandardCommunity.read?_text]; rfl
  | extended c => rw [read?, text, standardRead_extendedText, ExtendedCommunity.read?_text]; rfl
  | large c =>
    obtain ⟨hstandard, hextended⟩ := read_largeText c
    rw [read?, text, hstandard, hextended, LargeCommunity.read?_text]
    rfl

theorem text_injective {c d : Community} (h : c.text = d.text) : c = d :=
  Option.some.inj ((read?_text c).symm.trans ((congrArg read? h).trans (read?_text d)))

/-- **Two numbers with a colon between them** write a standard community or none. -/
theorem read?_numbers {m n : Nat} {c : Community}
    (h : read? (String.ofList (colonNumbers m n)) = some c) :
    ∃ s, c = .standard s ∧ s.text = String.ofList (colonNumbers m n) := by
  rw [read?, String.toList_ofList, ExtendedCommunity.read?_colonNumbers,
    LargeCommunity.read?_colonNumbers, StandardCommunity.read?_colonNumbers] at h
  rcases Nat.lt_or_ge 65535 m with hm | hm
  · rw [word16?, readUpTo?_digits_of_gt hm] at h
    cases h
  rcases Nat.lt_or_ge 65535 n with hn | hn
  · rw [word16?, word16?, readUpTo?_digits_of_gt hn] at h
    cases hw : readUpTo? 65535 (digits m) <;> rw [hw] at h <;> cases h
  · rw [word16?, word16?, readUpTo?_digits hm, readUpTo?_digits hn] at h
    refine ⟨⟨UInt16.ofNat m, UInt16.ofNat n⟩, (Option.some.inj h).symm, ?_⟩
    rw [← String.toList_inj, StandardCommunity.toList_text, String.toList_ofList,
      UInt16.toNat_ofNat_of_lt' (Nat.lt_succ_of_le hm),
      UInt16.toNat_ofNat_of_lt' (Nat.lt_succ_of_le hn)]

end Community

/-! ### AS paths -/

namespace AsPath

theorem text_ofNumbers (ns : List UInt32) :
    (ofNumbers ns).text = Text.joinWith " " (ns.map fun n => Decimal.text n.toNat) := by
  rw [text, ofNumbers, List.map_map]
  rfl

/-- A path whose hops are single numbers is the path of those numbers. -/
theorem exists_ofNumbers_eq {p : AsPath} (h : ∀ s ∈ p.hops, s.isSingle = true) :
    ∃ ns, p = ofNumbers ns := by
  obtain ⟨hops⟩ := p
  induction hops with
  | nil => exact ⟨[], rfl⟩
  | cons s hops ih =>
    obtain ⟨ns, hns⟩ := ih fun t ht => h t (List.mem_cons_of_mem _ ht)
    have hs := h s List.mem_cons_self
    rw [AsSet.isSingle, AscendingSet.size, beq_iff_eq, List.length_eq_one_iff] at hs
    obtain ⟨n, hn⟩ := hs
    refine ⟨n :: ns, ?_⟩
    obtain ⟨⟨list, hasc⟩⟩ := s
    obtain rfl : list = [n] := hn
    rw [ofNumbers, List.map_cons, mk.injEq]
    exact congrArg₂ List.cons rfl (congrArg AsPath.hops hns)

end AsPath
end RouteSolver
