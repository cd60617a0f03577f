/-
# Numerals in universes and values

The universes of delimited texts, the readers and the printers of communities and AS paths spell
numbers alike: as numerals, which are digits without leading zeros. A universe is wider than its
values only in the size of numbers. Two numerals of at most five digits with a colon between them
write a community exactly if both fit in 16 bits (`Community.read?_colonText`), numerals with spaces
between them an AS path exactly if all fit in 32 bits (`Decoding.readPath_spacedText`), and each
value is written as the text that it was read from.
-/

import RouteSolver.Proofs.Regex.Marked
import RouteSolver.Proofs.Witness.Representative

namespace RouteSolver

open Decimal Utf8

/-! ### Numerals -/

/-- A numeral: a number as it is written. -/
structure Numeral where
  /-- The digits. -/
  chars : List Char
  /-- There are no leading zeros. -/
  isNumeral : IsNumeral chars

namespace Numeral

/-- The number that is written. -/
def value (A : Numeral) : Nat := Decimal.value A.chars

/-- The numeral as a text. -/
def text (A : Numeral) : String := String.ofList A.chars

/-- The numeral of a number. -/
def ofNat (n : Nat) : Numeral := ⟨digits n, isNumeral_digits n⟩

theorem digits_value (A : Numeral) : digits A.value = A.chars := Decimal.digits_value A.isNumeral

theorem text_eq (A : Numeral) : A.text = Decimal.text A.value := by
  rw [text, Decimal.text, digits_value]

theorem value_ofNat (n : Nat) : (ofNat n).value = n := value_digits n

theorem map_value_ofNat (ns : List Nat) : (ns.map ofNat).map value = ns := by
  rw [List.map_map]
  exact (List.map_congr_left fun n _ => value_ofNat n).trans (List.map_id ns)

/-- A numeral is as long as its number is large. -/
theorem length_le_iff (A : Numeral) : A.chars.length ≤ 5 ↔ A.value < 100000 := by
  rw [← digits_value, length_digits_le_iff (by decide), show (10 : Nat) ^ 5 = 100000 from rfl]

/-- Two numerals with a colon between them. -/
def colonText (A B : Numeral) : String := A.text ++ ":" ++ B.text

theorem colonText_eq (A B : Numeral) :
    colonText A B = String.ofList (colonNumbers A.value B.value) := by
  rw [← String.toList_inj, colonText, text_eq, text_eq, String.toList_append, String.toList_append,
    toList_decimalText, toList_decimalText, List.append_assoc]
  exact String.toList_ofList.symm

/-- Numerals with spaces between them. -/
def spacedText (As : List Numeral) : String := Text.joinWith " " (As.map text)

theorem spacedText_eq (As : List Numeral) :
    spacedText As = String.ofList (Delimited.spacedNumbers (As.map value)) := by
  rw [← String.toList_inj, String.toList_ofList, spacedText,
    List.map_congr_left fun A _ => A.text_eq]
  cases As with
  | nil => rfl
  | cons A As =>
    rw [List.map_cons, Text.toList_joinWith, toList_decimalText, List.map_cons,
      Delimited.spacedNumbers, List.flatMap_map, List.flatMap_map]
    refine congrArg _ (List.flatMap_congr fun B _ => ?_)
    rw [toList_decimalText]
    rfl

end Numeral

/-! ### Universes -/

namespace Delimited

/-- A numeral of at most five digits as a pattern. -/
def halfPattern : String := "(?:0|[1-9][0-9]\x7b0,4\x7d)"

/-- A numeral as a pattern. -/
def numeralPattern : String := "(?:0|[1-9][0-9]*)"

/-- The delimited communities as a pattern. -/
def communitiesPattern : String := "\\^" ++ halfPattern ++ ":" ++ halfPattern ++ "\\$"

/-- The delimited AS paths as a pattern. -/
def asPathsPattern : String :=
  "\\^\\^(?:" ++ numeralPattern ++ "(?: " ++ numeralPattern ++ ")*)?\\$"

/-- **The universe of communities** is written as a pattern. -/
theorem ofPattern_communities : Automaton.ofPattern communitiesPattern = .ok allCommunities := by
  have hread : Regex.Expr.read? communitiesPattern = some communityExpr := by decide
  rw [Automaton.ofPattern, hread]
  rfl

/-- **The universe of AS paths** is written as a pattern. -/
theorem ofPattern_asPaths : ∃ a, Automaton.ofPattern asPathsPattern = .ok a ∧
    ∀ w, a.acceptsBytes w = allAsPaths.acceptsBytes w := by
  -- the pattern has the two marks at the start one after the other, the universe as one text
  have hread : Regex.Expr.read? asPathsPattern = some (.seq [exactText "^", exactText "^",
      .optional (.cat asNumber (.star (.cat (exactText " ") asNumber))), exactText endMark]) := by
    decide
  refine ⟨_, by rw [Automaton.ofPattern, hread], fun w => ?_⟩
  rw [Bool.eq_iff_iff, allAsPaths, Automaton.acceptsBytes_ofExpr, Automaton.acceptsBytes_ofExpr]
  exact (Regex.Expr.matches_cat_assoc _ _ _ none w none).symm

theorem bytes_delimited_colonText (A B : Numeral) :
    bytes (communityStart ++ Numeral.colonText A B ++ endMark) =
      ascii (communityChars A.value B.value) := by
  have h : (communityStart ++ Numeral.colonText A B ++ endMark).toList =
      communityChars A.value B.value := by
    rw [Numeral.colonText_eq, String.toList_append, String.toList_append, String.toList_ofList]
    rfl
  rw [bytes_eq_ascii (h ▸ isAscii_communityChars _ _), h]

theorem bytes_delimited_spacedText (As : List Numeral) :
    bytes (asPathStart ++ Numeral.spacedText As ++ endMark) =
      ascii (asPathChars (As.map Numeral.value)) := by
  have h : (asPathStart ++ Numeral.spacedText As ++ endMark).toList =
      asPathChars (As.map Numeral.value) := by
    rw [Numeral.spacedText_eq, String.toList_append, String.toList_append, String.toList_ofList]
    rfl
  rw [bytes_eq_ascii (h ▸ isAscii_asPathChars _), h]

/-- **The universe of communities** has the pairs of numerals of at most five digits. -/
theorem acceptsBytes_allCommunities_iff (u : List UInt8) : allCommunities.acceptsBytes u = true ↔
    ∃ A B : Numeral, A.chars.length ≤ 5 ∧ B.chars.length ≤ 5 ∧
      u = bytes (communityStart ++ Numeral.colonText A B ++ endMark) := by
  rw [acceptsBytes_allCommunities]
  constructor
  · rintro ⟨m, n, hm, hn, rfl⟩
    refine ⟨.ofNat m, .ofNat n, ?_, ?_, ?_⟩
    · rwa [Numeral.length_le_iff, Numeral.value_ofNat]
    · rwa [Numeral.length_le_iff, Numeral.value_ofNat]
    · rw [bytes_delimited_colonText, Numeral.value_ofNat, Numeral.value_ofNat]
  · rintro ⟨A, B, hA, hB, rfl⟩
    exact ⟨A.value, B.value, A.length_le_iff.1 hA, B.length_le_iff.1 hB,
      bytes_delimited_colonText A B⟩

/-- **The universe of AS paths** has the lists of numerals. -/
theorem acceptsBytes_allAsPaths_iff (u : List UInt8) : allAsPaths.acceptsBytes u = true ↔
    ∃ As : List Numeral, u = bytes (asPathStart ++ Numeral.spacedText As ++ endMark) := by
  rw [acceptsBytes_allAsPaths]
  constructor
  · rintro ⟨ns, rfl⟩
    refine ⟨ns.map .ofNat, ?_⟩
    rw [bytes_delimited_spacedText, Numeral.map_value_ofNat]
  · rintro ⟨As, rfl⟩
    exact ⟨As.map Numeral.value, bytes_delimited_spacedText As⟩

end Delimited

/-! ### Values -/

theorem word16?_digits_of_le {n : Nat} (h : n ≤ 65535) :
    word16? (digits n) = some (UInt16.ofNat n) := by
  rw [word16?, readUpTo?_digits h, Option.map_some]

theorem word16?_digits_of_gt {n : Nat} (h : 65535 < n) : word16? (digits n) = none := by
  rw [word16?, readUpTo?_digits_of_gt h, Option.map_none]

/-- **Two numerals** with a colon between them write the standard community of their numbers if
both fit in 16 bits, and no community otherwise. -/
theorem Community.read?_colonText (A B : Numeral) : read? (Numeral.colonText A B) =
    if A.value ≤ 65535 ∧ B.value ≤ 65535 then
      some (.standard ⟨UInt16.ofNat A.value, UInt16.ofNat B.value⟩)
    else none := by
  have hread : read? (Numeral.colonText A B) =
      ((word16? (digits A.value)).bind fun high =>
        (word16? (digits B.value)).map fun low => ⟨high, low⟩).map .standard := by
    rw [Numeral.colonText_eq, read?, String.toList_ofList, ExtendedCommunity.read?_colonNumbers,
      LargeCommunity.read?_colonNumbers, StandardCommunity.read?_colonNumbers, Option.map_none,
      Option.map_none, Option.or_none, Option.or_none]
  rw [hread]
  rcases Nat.lt_or_ge 65535 A.value with hA | hA
  · rw [word16?_digits_of_gt hA, if_neg fun h => Nat.not_lt.2 h.1 hA]
    rfl
  rcases Nat.lt_or_ge 65535 B.value with hB | hB
  · rw [word16?_digits_of_gt hB, if_neg fun h => Nat.not_lt.2 h.2 hB, word16?_digits_of_le hA]
    rfl
  · rw [word16?_digits_of_le hA, word16?_digits_of_le hB, if_pos ⟨hA, hB⟩]
    rfl

/-- What two numerals write is written as the two numerals. -/
theorem Community.text_of_read?_colonText {A B : Numeral} {c : Community}
    (h : read? (Numeral.colonText A B) = some c) : c.text = Numeral.colonText A B := by
  rw [Numeral.colonText_eq] at h ⊢
  obtain ⟨s, rfl, hs⟩ := Community.read?_numbers h
  exact hs

namespace Decoding

/-- **Numerals with spaces between them** write the AS path of their numbers if all fit in 32 bits;
otherwise the first that does not is reported. -/
theorem readPath_spacedText (As : List Numeral) : readPath (Numeral.spacedText As) =
    match As.find? (4294967295 < ·.value) with
    | none => .ok (.ofNumbers (As.map fun A => UInt32.ofNat A.value))
    | some A => .error (.notAnAsNumber A.text (Numeral.spacedText As)) := by
  rw [Numeral.spacedText_eq]
  cases hA : As.find? (4294967295 < ·.value) with
  | none =>
    refine readPath_spacedNumbers_iff.2 ⟨_, ?_, rfl⟩
    rw [List.map_map]
    refine List.map_congr_left fun A hmem => ?_
    have hle : A.value ≤ 4294967295 := by simpa using List.find?_eq_none.1 hA A hmem
    exact UInt32.toNat_ofNat_of_lt' (Nat.lt_succ_of_le hle)
  | some A =>
    have hn : (As.map Numeral.value).find? (4294967295 < ·) = some A.value := by
      rw [List.find?_map]
      exact congrArg (Option.map Numeral.value) hA
    rw [readPath_spacedNumbers, asNumbers_eq_error _ hn, ← A.text_eq]
    rfl

/-- What numerals write is written as the numerals. -/
theorem text_of_readPath_spacedText {As : List Numeral} {p : AsPath}
    (h : readPath (Numeral.spacedText As) = .ok p) : p.text = Numeral.spacedText As := by
  rw [Numeral.spacedText_eq] at h ⊢
  obtain ⟨ms, hms, rfl⟩ := readPath_spacedNumbers_iff.1 h
  rw [← String.toList_inj, Delimited.toList_text_ofNumbers, hms, String.toList_ofList]

/-- Numerals are read as a path exactly if every number fits. -/
theorem exists_readPath_spacedText_iff (As : List Numeral) :
    (∃ p, readPath (Numeral.spacedText As) = .ok p) ↔ ∀ A ∈ As, A.value ≤ 4294967295 := by
  rw [readPath_spacedText]
  cases hA : As.find? (4294967295 < ·.value) with
  | none => exact iff_of_true ⟨_, rfl⟩ fun A hmem => by simpa using List.find?_eq_none.1 hA A hmem
  | some A =>
    have hgt : 4294967295 < A.value := by simpa using List.find?_some hA
    exact iff_of_false nofun fun h => Nat.not_lt.2 (h A (List.mem_of_find?_eq_some hA)) hgt

end Decoding

open Delimited Decoding

/-- **Universes, readers and printers agree.** A universe is the language of its pattern and has
exactly the delimited texts of numerals: two of at most five digits with a colon between them, or
any number of them with single spaces between them. Its texts without marks are read number by
number, fail only by a number that is too large, and are what their values are written as. The
delimited texts of all values are in it. -/
theorem universes_agree :
    (Automaton.ofPattern communitiesPattern = .ok allCommunities ∧
      (∀ u, allCommunities.acceptsBytes u = true ↔
        ∃ A B : Numeral, A.chars.length ≤ 5 ∧ B.chars.length ≤ 5 ∧
          u = bytes (communityStart ++ Numeral.colonText A B ++ endMark)) ∧
      (∀ A B : Numeral, Community.read? (Numeral.colonText A B) =
          (if A.value ≤ 65535 ∧ B.value ≤ 65535 then
            some (.standard ⟨UInt16.ofNat A.value, UInt16.ofNat B.value⟩)
          else none) ∧
        ∀ c, Community.read? (Numeral.colonText A B) = some c → c.text = Numeral.colonText A B) ∧
      ∀ c, allCommunities.accepts (ofCommunity c) = true) ∧
    (∃ a, Automaton.ofPattern asPathsPattern = .ok a ∧
      ∀ w, a.acceptsBytes w = allAsPaths.acceptsBytes w) ∧
    (∀ u, allAsPaths.acceptsBytes u = true ↔
      ∃ As : List Numeral, u = bytes (asPathStart ++ Numeral.spacedText As ++ endMark)) ∧
    (∀ As : List Numeral,
      ((∃ p, readPath (Numeral.spacedText As) = .ok p) ↔ ∀ A ∈ As, A.value ≤ 4294967295) ∧
      readPath (Numeral.spacedText As) =
        (match As.find? (4294967295 < ·.value) with
        | none => .ok (.ofNumbers (As.map fun A => UInt32.ofNat A.value))
        | some A => .error (.notAnAsNumber A.text (Numeral.spacedText As))) ∧
      ∀ p, readPath (Numeral.spacedText As) = .ok p → p.text = Numeral.spacedText As) ∧
    ∀ ns, allAsPaths.accepts (asPathText (.ofNumbers ns)) = true :=
  ⟨⟨ofPattern_communities, acceptsBytes_allCommunities_iff,
      fun A B => ⟨Community.read?_colonText A B, fun _ => Community.text_of_read?_colonText⟩,
      accepts_ofCommunity⟩,
    ofPattern_asPaths, acceptsBytes_allAsPaths_iff,
    fun As => ⟨exists_readPath_spacedText_iff As, readPath_spacedText As,
      fun _ => text_of_readPath_spacedText⟩,
    accepts_asPathText⟩

end RouteSolver
