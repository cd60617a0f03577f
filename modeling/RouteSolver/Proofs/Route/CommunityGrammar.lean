/-
# What the grammars of communities read

The readers of communities take texts apart in three ways: at the first colon, at the first two,
and at all of them after a word that may be left out. What they accept is said without them: runs of
digits (`Decimal.IsRun`) with colons between them, where leading zeros make no difference, after the
word of the kind if it has one. Each reader reads these texts and no others
(`StandardCommunity.read?_eq_some_iff` and its siblings, which also say as what).

The number of colons and the word at the start tell the three forms apart, so a text is in one of
them at most. The order in which the grammars are tried cannot be seen from any text
(`Community.grammars_exact`).
-/

import RouteSolver.Proofs.Lists
import RouteSolver.Proofs.Route.CommunityText

namespace RouteSolver

open Decimal

/-! ### Runs of digits -/

namespace Decimal

/-- At least one digit and nothing else, for a number up to `max`. There may be leading zeros. -/
structure IsRun (max : Nat) (cs : List Char) : Prop where
  ne_nil : cs ≠ []
  isDigit : ∀ c ∈ cs, c.isDigit = true
  value_le : value cs ≤ max

theorem IsRun.not_mem {max : Nat} {cs : List Char} (h : IsRun max cs) {c : Char}
    (hc : c.isDigit = false) : c ∉ cs := fun hmem =>
  absurd (h.isDigit c hmem) (Bool.eq_false_iff.1 hc)

theorem IsRun.colon_not_mem {max : Nat} {cs : List Char} (h : IsRun max cs) : ':' ∉ cs :=
  h.not_mem (by decide)

theorem readUpTo?_eq_some_iff {max n : Nat} {cs : List Char} :
    readUpTo? max cs = some n ↔ IsRun max cs ∧ value cs = n := by
  have hread : read? cs = some n ↔ (cs ≠ [] ∧ ∀ c ∈ cs, c.isDigit = true) ∧ value cs = n := by
    rw [read?]
    split
    · rename_i h
      rw [Bool.or_eq_true, List.isEmpty_iff, Bool.not_eq_true', ← Bool.not_eq_true,
        List.all_eq_true] at h
      refine iff_of_false (Option.some_ne_none n).symm fun hrun => ?_
      exact h.elim hrun.1.1 fun hnot => hnot hrun.1.2
    · rename_i h
      rw [Bool.or_eq_true, List.isEmpty_iff, Bool.not_eq_true', ← Bool.not_eq_true,
        List.all_eq_true, not_or, not_not] at h
      rw [Option.some.injEq, and_iff_right h]
  rw [readUpTo?, Option.filter_eq_some_iff, hread, decide_eq_true_iff]
  constructor
  · rintro ⟨⟨⟨hne, hdigit⟩, rfl⟩, hle⟩
    exact ⟨⟨hne, hdigit, hle⟩, rfl⟩
  · rintro ⟨⟨hne, hdigit, hle⟩, rfl⟩
    exact ⟨⟨⟨hne, hdigit⟩, rfl⟩, hle⟩

theorem isSome_readUpTo?_iff {max : Nat} {cs : List Char} :
    (readUpTo? max cs).isSome = true ↔ IsRun max cs := by
  rw [Option.isSome_iff_exists]
  simp only [readUpTo?_eq_some_iff, exists_and_left, exists_eq', and_true]

theorem value_zero_cons (cs : List Char) : value ('0' :: cs) = value cs := rfl

/-- **Leading zeros** make no difference. -/
theorem isRun_zeros_append (max zeros : Nat) (c : Char) (cs : List Char) :
    IsRun max (List.replicate zeros '0' ++ c :: cs) ↔ IsRun max (c :: cs) := by
  induction zeros with
  | zero => exact .rfl
  | succ zeros ih =>
    rw [← ih, List.replicate_succ, List.cons_append]
    constructor
    · rintro ⟨-, hdigit, hle⟩
      exact ⟨by simp, (List.forall_mem_cons.1 hdigit).2, value_zero_cons _ ▸ hle⟩
    · rintro ⟨-, hdigit, hle⟩
      exact ⟨List.cons_ne_nil _ _, List.forall_mem_cons.2 ⟨rfl, hdigit⟩, hle⟩

end Decimal

theorem isSome_word16?_iff {cs : List Char} : (word16? cs).isSome = true ↔ IsRun 65535 cs := by
  rw [word16?, Option.isSome_map, isSome_readUpTo?_iff]

theorem isSome_word32?_iff {cs : List Char} :
    (word32? cs).isSome = true ↔ IsRun 4294967295 cs := by
  rw [word32?, Option.isSome_map, isSome_readUpTo?_iff]

/-- A number of 32 bits is that of its digits. -/
theorem value_eq_of_word32? {cs : List Char} {n : UInt32} (h : word32? cs = some n) :
    value cs = n.toNat := by
  obtain ⟨k, hk, rfl⟩ := Option.map_eq_some_iff.1 h
  obtain ⟨hrun, rfl⟩ := readUpTo?_eq_some_iff.1 hk
  exact (UInt32.toNat_ofNat_of_lt' (Nat.lt_succ_of_le hrun.value_le)).symm

theorem isRun_of_word32? {cs : List Char} {n : UInt32} (h : word32? cs = some n) :
    IsRun 4294967295 cs :=
  isSome_word32?_iff.1 (Option.isSome_of_eq_some h)

/-! ### The grammars -/

namespace StandardCommunity

/-- **A standard community** is read off two numbers with a colon between them. -/
theorem read?_eq_some_iff {cs : List Char} {c : StandardCommunity} : read? cs = some c ↔
    ∃ a b, cs = a ++ ':' :: b ∧ word16? a = some c.high ∧ word16? b = some c.low := by
  constructor
  · intro h
    obtain ⟨⟨a, b⟩, hcut, h⟩ := Option.bind_eq_some_iff.1 h
    obtain ⟨high, hhigh, h⟩ := Option.bind_eq_some_iff.1 h
    obtain ⟨low, hlow, h⟩ := Option.bind_eq_some_iff.1 h
    obtain rfl := Option.some.inj h
    exact ⟨a, b, (Text.cut_eq_some hcut).1, hhigh, hlow⟩
  · rintro ⟨a, b, rfl, hhigh, hlow⟩
    have hrun := isSome_word16?_iff.1 (Option.isSome_of_eq_some hhigh)
    rw [read?, Text.cut_append hrun.colon_not_mem]
    simp only [Option.bind_eq_bind, Option.bind_some, hhigh, hlow]
    rfl

/-- Which texts write a standard community. -/
theorem isSome_read?_iff {cs : List Char} : (read? cs).isSome = true ↔
    ∃ a b, cs = a ++ ':' :: b ∧ IsRun 65535 a ∧ IsRun 65535 b := by
  simp only [← isSome_word16?_iff, Option.isSome_iff_exists, read?_eq_some_iff]
  constructor
  · rintro ⟨c, a, b, hcs, ha, hb⟩
    exact ⟨a, b, hcs, ⟨_, ha⟩, _, hb⟩
  · rintro ⟨a, b, hcs, ⟨high, ha⟩, low, hb⟩
    exact ⟨⟨high, low⟩, a, b, hcs, ha, hb⟩

end StandardCommunity

namespace ExtendedCommunity

theorem ofKeyword?_eq_some_iff {cs : List Char} {kind : ExtendedKind} :
    ExtendedKind.ofKeyword? cs = some kind ↔ cs = kind.keyword.toList := by
  constructor
  · intro h
    rw [ExtendedKind.ofKeyword?] at h
    split at h
    · rename_i hcs
      exact Option.some.inj h ▸ hcs
    · split at h
      · rename_i hcs
        exact Option.some.inj h ▸ hcs
      · cases h
  · rintro rfl
    exact (keyword_spec kind).2.2

/-- **An extended community** is read off two numbers with a colon between them, after its word and
a colon. -/
theorem read?_eq_some_iff {cs : List Char} {c : ExtendedCommunity} : read? cs = some c ↔
    ∃ a b, cs = c.kind.keyword.toList ++ ':' :: (a ++ ':' :: b) ∧
      word32? a = some c.administrator ∧ word32? b = some c.assigned := by
  constructor
  · intro h
    obtain ⟨⟨word, rest⟩, hword, h⟩ := Option.bind_eq_some_iff.1 h
    obtain ⟨kind, hkind, h⟩ := Option.bind_eq_some_iff.1 h
    obtain ⟨⟨a, b⟩, hcut, h⟩ := Option.bind_eq_some_iff.1 h
    obtain ⟨administrator, ha, h⟩ := Option.bind_eq_some_iff.1 h
    obtain ⟨assigned, hb, h⟩ := Option.bind_eq_some_iff.1 h
    have hcs : cs = kind.keyword.toList ++ ':' :: (a ++ ':' :: b) := by
      rw [(Text.cut_eq_some hword).1, ofKeyword?_eq_some_iff.1 hkind, (Text.cut_eq_some hcut).1]
    have hof : of? kind administrator assigned = some c := h
    rw [of?] at hof
    split at hof
    · obtain rfl := Option.some.inj hof
      exact ⟨a, b, hcs, ha, hb⟩
    · cases hof
  · rintro ⟨a, b, rfl, ha, hb⟩
    obtain ⟨hcolon, -, hkind⟩ := keyword_spec c.kind
    rw [read?, Text.cut_append hcolon]
    simp only [Option.bind_eq_bind, Option.bind_some, hkind,
      Text.cut_append (isRun_of_word32? ha).colon_not_mem, ha, hb]
    exact dif_pos c.fits

/-- Which texts write an extended community. -/
theorem isSome_read?_iff {cs : List Char} : (read? cs).isSome = true ↔
    ∃ word a b, (word = "target:" ∨ word = "origin:") ∧ cs = word.toList ++ (a ++ ':' :: b) ∧
      IsRun 4294967295 a ∧ IsRun 4294967295 b ∧ ¬(65535 < value a ∧ 65535 < value b) := by
  have hword : ∀ (kind : ExtendedKind) (rest : List Char),
      kind.keyword.toList ++ ':' :: rest = (kind.keyword ++ ":").toList ++ rest := by
    intro kind rest
    rw [String.toList_append, List.append_assoc]
    rfl
  simp only [← isSome_word32?_iff, Option.isSome_iff_exists, read?_eq_some_iff]
  constructor
  · rintro ⟨c, a, b, hcs, ha, hb⟩
    refine ⟨c.kind.keyword ++ ":", a, b, ?_, hcs.trans (hword _ _), ⟨_, ha⟩, ⟨_, hb⟩, ?_⟩
    · cases c.kind with
      | target => exact .inl rfl
      | origin => exact .inr rfl
    · rw [value_eq_of_word32? ha, value_eq_of_word32? hb]
      have := c.fits
      omega
  · rintro ⟨word, a, b, hkind, hcs, ⟨administrator, ha⟩, ⟨assigned, hb⟩, hfits⟩
    rw [value_eq_of_word32? ha, value_eq_of_word32? hb] at hfits
    obtain ⟨kind, rfl⟩ : ∃ kind : ExtendedKind, word = kind.keyword ++ ":" :=
      hkind.elim (fun h => ⟨.target, h⟩) fun h => ⟨.origin, h⟩
    exact ⟨⟨kind, administrator, assigned, by omega⟩, a, b, hcs.trans (hword _ _).symm, ha, hb⟩

end ExtendedCommunity

namespace LargeCommunity

/-- A number is not the beginning of the word. -/
theorem dropStart?_of_isRun {max : Nat} {a : List Char} (ha : IsRun max a) (rest : List Char) :
    Text.dropStart? keyword.toList (a ++ rest) = none := by
  rw [Option.eq_none_iff_forall_ne_some]
  intro body hbody
  have hkey : keyword.toList = 'l' :: "arge:".toList := by decide
  obtain ⟨d, ds, rfl⟩ := List.exists_cons_of_ne_nil ha.ne_nil
  have hcs := Text.dropStart?_eq_some_iff.1 hbody
  rw [hkey] at hcs
  have hdigit := ha.isDigit d List.mem_cons_self
  rw [(List.cons.inj hcs).1] at hdigit
  exact absurd hdigit (by decide)

/-- **A large community** is read off three numbers with colons between them, which may come after
its word. -/
theorem read?_eq_some_iff {cs : List Char} {c : LargeCommunity} : read? cs = some c ↔
    ∃ word a b e, (word = "" ∨ word = keyword) ∧
      cs = word.toList ++ (a ++ ':' :: (b ++ ':' :: e)) ∧
      word32? a = some c.administrator ∧ word32? b = some c.first ∧ word32? e = some c.second := by
  constructor
  · intro h
    rw [read?] at h
    obtain ⟨word, hword, hcs⟩ : ∃ word, (word = "" ∨ word = keyword) ∧
        cs = word.toList ++ (Text.dropStart? keyword.toList cs).getD cs := by
      cases hstart : Text.dropStart? keyword.toList cs with
      | none => exact ⟨"", .inl rfl, rfl⟩
      | some body => exact ⟨keyword, .inr rfl, Text.dropStart?_eq_some_iff.1 hstart⟩
    generalize (Text.dropStart? keyword.toList cs).getD cs = body at h hcs
    obtain ⟨part, parts, rfl, hpart, hparts⟩ := Text.exists_join ':' body
    rw [Text.split_join hpart hparts] at h
    rcases parts with _ | ⟨b, _ | ⟨e, _ | ⟨_, _⟩⟩⟩
    · cases h
    · cases h
    · obtain ⟨administrator, ha, h⟩ := Option.bind_eq_some_iff.1 h
      obtain ⟨first, hb, h⟩ := Option.bind_eq_some_iff.1 h
      obtain ⟨second, he, h⟩ := Option.bind_eq_some_iff.1 h
      obtain rfl := Option.some.inj h
      refine ⟨word, part, b, e, hword, ?_, ha, hb, he⟩
      rw [hcs, List.flatMap_cons, List.flatMap_cons, List.flatMap_nil, List.append_nil]
      rfl
    · cases h
  · rintro ⟨word, a, b, e, hword, rfl, ha, hb, he⟩
    have hbody : (Text.dropStart? keyword.toList
        (word.toList ++ (a ++ ':' :: (b ++ ':' :: e)))).getD
        (word.toList ++ (a ++ ':' :: (b ++ ':' :: e))) = a ++ ':' :: (b ++ ':' :: e) := by
      rcases hword with rfl | rfl
      · exact congrArg (Option.getD · _) (dropStart?_of_isRun (isRun_of_word32? ha) _)
      · rw [Text.dropStart?_append, Option.getD_some]
    rw [read?, hbody, Text.split_append (isRun_of_word32? ha).colon_not_mem,
      Text.split_append (isRun_of_word32? hb).colon_not_mem,
      Text.split_of_not_mem (isRun_of_word32? he).colon_not_mem]
    simp only [Option.bind_eq_bind, Option.bind_some, ha, hb, he]
    rfl

/-- Which texts write a large community. -/
theorem isSome_read?_iff {cs : List Char} : (read? cs).isSome = true ↔
    ∃ word a b e, (word = "" ∨ word = "large:") ∧
      cs = word.toList ++ (a ++ ':' :: (b ++ ':' :: e)) ∧
      IsRun 4294967295 a ∧ IsRun 4294967295 b ∧ IsRun 4294967295 e := by
  simp only [← isSome_word32?_iff, Option.isSome_iff_exists, read?_eq_some_iff]
  constructor
  · rintro ⟨c, word, a, b, e, hword, hcs, ha, hb, he⟩
    exact ⟨word, a, b, e, hword, hcs, ⟨_, ha⟩, ⟨_, hb⟩, _, he⟩
  · rintro ⟨word, a, b, e, hword, hcs, ⟨administrator, ha⟩, ⟨first, hb⟩, second, he⟩
    exact ⟨⟨administrator, first, second⟩, word, a, b, e, hword, hcs, ha, hb, he⟩

end LargeCommunity

/-! ### At most one grammar -/

/-- What writes an extended community writes no other one: it begins with a word of its own. -/
theorem ExtendedCommunity.others_eq_none {cs : List Char} {c : ExtendedCommunity}
    (h : read? cs = some c) :
    StandardCommunity.read? cs = none ∧ LargeCommunity.read? cs = none := by
  obtain ⟨a, b, rfl, -, -⟩ := read?_eq_some_iff.1 h
  exact others_of_keyword c.kind _

/-- What writes a standard community writes no large one: it has a colon too few. -/
theorem StandardCommunity.large_eq_none {cs : List Char} {c : StandardCommunity}
    (h : read? cs = some c) : LargeCommunity.read? cs = none := by
  have hcount {max : Nat} {ds : List Char} (hds : IsRun max ds) : ds.count ':' = 0 :=
    List.count_eq_zero.2 hds.colon_not_mem
  obtain ⟨a, b, rfl, ha, hb⟩ := isSome_read?_iff.1 (Option.isSome_of_eq_some h)
  rw [← Option.not_isSome_iff_eq_none, LargeCommunity.isSome_read?_iff]
  rintro ⟨word, x, y, z, -, heq, hx, hy, hz⟩
  have hcolons := congrArg (List.count ':') heq
  simp only [List.count_append, List.count_cons_self, hcount ha, hcount hb, hcount hx, hcount hy,
    hcount hz] at hcolons
  omega

namespace Community

/-- The grammars in the order in which they are tried. -/
def grammars : List (List Char → Option Community) :=
  [fun cs => (StandardCommunity.read? cs).map standard,
    fun cs => (ExtendedCommunity.read? cs).map extended,
    fun cs => (LargeCommunity.read? cs).map large]

/-- The first grammar that reads the text decides. -/
theorem read?_eq_findSome? (t : String) : read? t = grammars.findSome? (· t.toList) := by
  simp only [read?, grammars, List.findSome?_cons, List.findSome?_nil]
  cases (StandardCommunity.read? t.toList).map standard with
  | some c => rfl
  | none =>
    cases (ExtendedCommunity.read? t.toList).map extended with
    | some c => rfl
    | none => cases (LargeCommunity.read? t.toList).map large <;> rfl

/-- **A text is read by one grammar** at most. -/
theorem length_readings_le_one (cs : List Char) : (grammars.filterMap (· cs)).length ≤ 1 := by
  cases hextended : ExtendedCommunity.read? cs with
  | some e =>
    obtain ⟨hstandard, hlarge⟩ := ExtendedCommunity.others_eq_none hextended
    simp [grammars, hstandard, hextended, hlarge]
  | none =>
    cases hstandard : StandardCommunity.read? cs with
    | some c => simp [grammars, hstandard, hextended, StandardCommunity.large_eq_none hstandard]
    | none => cases hlarge : LargeCommunity.read? cs <;>
        simp [grammars, hstandard, hextended, hlarge]

/-- **The grammars are exact, and no two of them read the same text.** A standard community is
written as two runs of digits for numbers of 16 bits with a colon between them; an extended one as
two runs for numbers of 32 bits after its word, unless both need more than 16 bits; a large one as
three runs for numbers of 32 bits, with its word before them or without. Nothing else is read, and
leading zeros make no difference. Since at most one grammar reads a text, they may be tried in any
order. -/
theorem grammars_exact (t : String) :
    ((StandardCommunity.read? t.toList).isSome = true ↔
      ∃ a b, t.toList = a ++ ':' :: b ∧ IsRun 65535 a ∧ IsRun 65535 b) ∧
    ((ExtendedCommunity.read? t.toList).isSome = true ↔
      ∃ word a b, (word = "target:" ∨ word = "origin:") ∧
        t.toList = word.toList ++ (a ++ ':' :: b) ∧
        IsRun 4294967295 a ∧ IsRun 4294967295 b ∧ ¬(65535 < value a ∧ 65535 < value b)) ∧
    ((LargeCommunity.read? t.toList).isSome = true ↔
      ∃ word a b c, (word = "" ∨ word = "large:") ∧
        t.toList = word.toList ++ (a ++ ':' :: (b ++ ':' :: c)) ∧
        IsRun 4294967295 a ∧ IsRun 4294967295 b ∧ IsRun 4294967295 c) ∧
    (∀ max zeros c cs,
      IsRun max (List.replicate zeros '0' ++ c :: cs) ↔ IsRun max (c :: cs)) ∧
    (grammars.filterMap (· t.toList)).length ≤ 1 ∧
    ∀ order : List (List Char → Option Community), order.Perm grammars →
      order.findSome? (· t.toList) = read? t := by
  refine ⟨StandardCommunity.isSome_read?_iff, ExtendedCommunity.isSome_read?_iff,
    LargeCommunity.isSome_read?_iff, isRun_zeros_append, length_readings_le_one t.toList,
    fun order horder => ?_⟩
  rw [read?_eq_findSome?]
  exact (findSome?_eq_of_perm horder.symm (length_readings_le_one t.toList)).symm

/-- The word of large communities may stand there once, and a sign makes a number none. -/
example : read? "large:large:1:2:3" = none ∧ read? "+1:2" = none ∧
    read? "007:1" = some (.standard ⟨7, 1⟩) := by decide

end Community
end RouteSolver
