/-
# The pattern of one community

A standard community and the router pattern `^A:B$` go by the same name, so they must have the same
language. They do: the pattern is a row of characters that stand for themselves between the anchors
(`numbersPattern`), so it finds the texts that contain the community, and the marks keep everything
else away (`matchingCommunities_ofCommunity`).
-/

import RouteSolver.Proofs.Domain.RouterSearch

namespace RouteSolver

open Decimal Delimited Regex Utf8

/-! ### Characters in a row -/

namespace RouterPattern

/-- Characters that stand for themselves, in a row. -/
def ofChars : (cs : List Char) → (∀ c ∈ cs, IsOrdinary c) → RouterPattern
  | [], _ => .nothing
  | c :: cs, h => .cat (.symbol (.char c (h c List.mem_cons_self)))
      (ofChars cs fun d hd => h d (List.mem_cons_of_mem c hd))

variable {cs : List Char} (h : ∀ c ∈ cs, IsOrdinary c)

theorem spell_ofChars : (ofChars cs h).spell .router = cs := by
  induction cs with
  | nil => rfl
  | cons c cs ih => exact congrArg (c :: ·) (ih _)

theorem fits_ofChars : (ofChars cs h).fits = true := by
  induction cs with
  | nil => rfl
  | cons c cs ih => exact ih _

theorem depth_ofChars : (ofChars cs h).depth = 0 := by
  induction cs with
  | nil => rfl
  | cons c cs ih =>
    rw [ofChars, depth, depth, ih]
    rfl

theorem matches_ofChars {start w : List UInt8} :
    (ofChars cs h).Matches start w ↔ w = cs.flatMap String.utf8EncodeChar := by
  induction cs generalizing w with
  | nil => exact Iff.rfl
  | cons c cs ih =>
    rw [List.flatMap_cons]
    constructor
    · rintro ⟨u, v, rfl, hu, hv⟩
      obtain rfl : u = String.utf8EncodeChar c := hu
      rw [(ih _).1 hv]
    · rintro rfl
      exact ⟨_, _, rfl, rfl, (ih _).2 rfl⟩

end RouterPattern

namespace Delimited

/-! ### Two numbers between anchors -/

/-- A digit or a colon. -/
abbrev IsPlain (c : Char) : Prop := c.isDigit = true ∨ c = ':'

theorem isPlain_colonNumbers {m n : Nat} {c : Char} (h : c ∈ colonNumbers m n) : IsPlain c := by
  have hdigit : ∀ k, c ∈ digits k → IsPlain c := fun k hk =>
    .inl (List.all_eq_true.1 (digits_all_isDigit k) c hk)
  rcases List.mem_append.1 h with h | h
  · exact hdigit m h
  · rcases List.mem_cons.1 h with rfl | h
    · exact .inr rfl
    · exact hdigit n h

theorem IsPlain.isAscii {c : Char} (h : IsPlain c) : c.toNat < 128 := by
  rcases h with h | rfl
  · have hall : IsAscii [c] := isAscii_of_isDigit fun d hd => List.mem_singleton.1 hd ▸ h
    exact hall c List.mem_cons_self
  · decide

theorem IsPlain.isOrdinary {c : Char} (h : IsPlain c) : IsOrdinary c := by
  have hnot : ∀ d ∈ ['\\', '[', '^', '$', '_', '.', '(', ')', '|', '?', '*', '+', '\x7b'],
      ¬IsPlain d := List.all_iff_forall_prop.1 (by decide)
  exact fun hc => hnot c hc h

/-- The pattern of two numbers. -/
def numbersPattern (m n : Nat) : RouterPattern :=
  .cat .startMark (.cat
    (.ofChars (colonNumbers m n) fun _ hc => (isPlain_colonNumbers hc).isOrdinary)
    (.symbol .endMark))

theorem spell_numbersPattern (m n : Nat) :
    (numbersPattern m n).spell .router = communityChars m n := by
  rw [numbersPattern, RouterPattern.spell, RouterPattern.spell, RouterPattern.spell,
    RouterPattern.spell_ofChars]
  rfl

theorem text_numbersPattern (c : StandardCommunity) :
    (numbersPattern c.high.toNat c.low.toNat).text = ofCommunity c := by
  rw [← String.toList_inj, toList_ofCommunity, RouterPattern.text, String.toList_ofList,
    spell_numbersPattern]

theorem isRead_numbersPattern (m n : Nat) :
    (Alternatives.mk (numbersPattern m n) []).IsRead .community := by
  refine Alternatives.isRead_of_depth ?_ ?_ (Nat.zero_le _)
  · simp [numbersPattern, RouterPattern.fits, RouterPattern.fits_ofChars, RouterPattern.fitsMore]
  · simp [numbersPattern, RouterPattern.depth, RouterPattern.depth_ofChars]

theorem ascii_communityChars_eq (m n : Nat) : ascii (communityChars m n) =
    byteOf '^' :: (ascii (colonNumbers m n) ++ [byteOf '$']) := by
  simp [communityChars, ascii]

theorem matches_numbersPattern {m n : Nat} {w : List UInt8} :
    (numbersPattern m n).Matches (bytes communityStart) w ↔ w = ascii (communityChars m n) := by
  have hascii : (colonNumbers m n).flatMap String.utf8EncodeChar = ascii (colonNumbers m n) := by
    have hbytes := bytes_eq_ascii (s := String.ofList (colonNumbers m n)) fun c hc =>
      (isPlain_colonNumbers (String.toList_ofList ▸ hc)).isAscii
    rwa [bytes, String.toList_ofList] at hbytes
  rw [ascii_communityChars_eq]
  constructor
  · rintro ⟨u, _, rfl, hu, v, x, rfl, hv, hx⟩
    obtain rfl : u = [byteOf '^'] := hu
    obtain rfl : x = [byteOf '$'] := hx
    rw [(RouterPattern.matches_ofChars _).1 hv, hascii]
    rfl
  · rintro rfl
    exact ⟨[byteOf '^'], _, rfl, rfl, _, [byteOf '$'], rfl,
      (RouterPattern.matches_ofChars _).2 hascii.symm, rfl⟩

/-! ### What it matches -/

/-- A delimited text inside another one is all of it, since the marks stand only at the ends. -/
theorem eq_of_delimited {α : Type} {a b : α} {x y u v : List α} (hab : a ≠ b) (hax : a ∉ x)
    (hbx : b ∉ x) (h : a :: (x ++ [b]) = u ++ (a :: (y ++ [b]) ++ v)) :
    u = [] ∧ v = [] ∧ x = y := by
  have hax' : a ∉ x ++ [b] := fun h => (List.mem_append.1 h).elim hax fun h =>
    hab (List.mem_singleton.1 h)
  have hu : [] ++ a :: (x ++ [b]) = u ++ a :: (y ++ [b] ++ v) := h
  obtain ⟨rfl, -, hrest⟩ := (List.append_cons_inj_of_notMem List.not_mem_nil hax').1 hu
  rw [List.append_assoc] at hrest
  obtain ⟨rfl, -, rfl⟩ := (List.append_cons_inj_of_notMem hbx List.not_mem_nil).1 hrest
  exact ⟨rfl, rfl, rfl⟩

theorem byteOf_not_mem_colonNumbers {c : Char} (hc : c.toNat < 128) (hplain : ¬IsPlain c)
    (m n : Nat) : byteOf c ∉ ascii (colonNumbers m n) := by
  intro h
  obtain ⟨d, hd, hdc⟩ := List.mem_map.1 h
  have hd := isPlain_colonNumbers hd
  exact hplain ((byteOf_inj hd.isAscii hc).1 hdc ▸ hd)

/-- Two numbers in a text of two numbers are all of it. -/
theorem found_numbersPattern_iff {m n : Nat} {w : List UInt8}
    (hw : allCommunities.acceptsBytes w = true) :
    (∃ u x v, w = u ++ x ++ v ∧ (numbersPattern m n).Matches (bytes communityStart) x) ↔
      w = ascii (communityChars m n) := by
  constructor
  · rintro ⟨u, x, v, rfl, hx⟩
    obtain rfl := matches_numbersPattern.1 hx
    obtain ⟨m, n, -, -, hw⟩ := (acceptsBytes_allCommunities _).1 hw
    rw [ascii_communityChars_eq, ascii_communityChars_eq, List.append_assoc] at hw
    obtain ⟨rfl, rfl, -⟩ := eq_of_delimited (by decide)
      (byteOf_not_mem_colonNumbers (by decide) (by decide) m n)
      (byteOf_not_mem_colonNumbers (by decide) (by decide) m n) hw.symm
    simp
  · rintro rfl
    exact ⟨[], _, [], (List.append_nil _).symm, matches_numbersPattern.2 rfl⟩

/-- **The pattern of two numbers** matches these two numbers alone. They need not be small enough
for a community. -/
theorem matchingCommunities_numbersPattern {m n : Nat} (hm : m < 100000) (hn : n < 100000) :
    ∃ a, matchingCommunities (numbersPattern m n).text = .ok a ∧ a.Valid ∧
      ∀ w, a.acceptsBytes w = true ↔ w = ascii (communityChars m n) := by
  obtain ⟨a, ha, hvalid, haccepts⟩ := Alternatives.exists_matching (isRead_numbersPattern m n)
  rw [← RouterPattern.text_eq] at ha
  refine ⟨a, ha, hvalid, fun w => (haccepts w).trans ?_⟩
  constructor
  · rintro ⟨hall, hfound⟩
    rw [Alternatives.found_single_iff (TextForm.ne_lineFeed .community hall)] at hfound
    exact (found_numbersPattern_iff hall).1 hfound
  · rintro rfl
    have hall := (acceptsBytes_allCommunities _).2 ⟨m, n, hm, hn, rfl⟩
    refine ⟨hall, (Alternatives.found_single_iff (TextForm.ne_lineFeed .community hall) _ _).2 ?_⟩
    exact (found_numbersPattern_iff hall).2 rfl

/-- **The pattern of one community** matches that community alone. -/
theorem matchingCommunities_ofCommunity (c : StandardCommunity) :
    ∃ a, matchingCommunities (ofCommunity c) = .ok a ∧ a.Valid ∧
      ∀ w, a.acceptsBytes w = true ↔ w = bytes (ofCommunity c) := by
  have hhigh := c.high.toNat_lt
  have hlow := c.low.toNat_lt
  rw [bytes_ofCommunity, ← text_numbersPattern]
  exact matchingCommunities_numbersPattern (by omega) (by omega)

end Delimited
end RouteSolver
