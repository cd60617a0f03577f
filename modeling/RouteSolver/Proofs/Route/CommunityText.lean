/-
# The text of a community

The three grammars are tried one after the other on the same text, so that a community is read back
from its text rests on the other grammars keeping away from it: the word at the start of an extended
or a large community is no number, the word of an extended one is not that of a large one, and a
standard one has a number too few (`Community.grammar_text`). What an extended community has no room
for is refused whichever grammar is tried (`ExtendedCommunity.community_textOf`).

Reading a text and writing what it was read as gives the normal text of the community. It is the
same for all texts of one community, differs between communities and is its own normal text
(`Community.text_roundTrip`).
-/

import RouteSolver.Proofs.Route.Texts

namespace RouteSolver

open Decimal

/-! ### Words -/

theorem word32?_of_mem {cs : List Char} {c : Char} (hc : c ∈ cs) (h : c.isDigit = false) :
    word32? cs = none := by
  rw [word32?, readUpTo?_of_mem hc h, Option.map_none]

namespace LargeCommunity

/-- A text that begins with another word than that of large communities writes none. -/
theorem read?_of_word {word rest : List Char} (hcolon : ':' ∉ word) {c : Char} (hc : c ∈ word)
    (hdigit : c.isDigit = false) (hword : word ≠ "large".toList) :
    read? (word ++ ':' :: rest) = none := by
  have hstart : Text.dropStart? keyword.toList (word ++ ':' :: rest) = none := by
    rw [Text.dropStart?, if_neg]
    intro hprefix
    obtain ⟨more, hmore⟩ := List.isPrefixOf_iff_prefix.1 hprefix
    -- up to the first colon both begin with the same word
    have hkey : keyword.toList ++ more = "large".toList ++ ':' :: more := rfl
    have hcut := congrArg (Text.cut ':') (hkey.symm.trans hmore)
    rw [Text.cut_append (by decide), Text.cut_append hcolon, Option.some.injEq] at hcut
    exact hword (Prod.mk.inj hcut).1.symm
  rw [read?, hstart, Option.getD_none, Text.split_append hcolon]
  simp only [Option.bind_eq_bind]
  split
  · rename_i heq
    rw [(List.cons.inj heq).1] at hc
    rw [word32?_of_mem hc hdigit, Option.bind_none]
  · rfl

end LargeCommunity

namespace ExtendedCommunity

/-- The text of two numbers as an extended community would have it. -/
def textOf (kind : ExtendedKind) (administrator assigned : UInt32) : String :=
  kind.keyword ++ ":" ++ Decimal.text administrator.toNat ++ ":" ++ Decimal.text assigned.toNat

theorem toList_textOf (kind : ExtendedKind) (administrator assigned : UInt32) :
    (textOf kind administrator assigned).toList = kind.keyword.toList ++ ':' ::
      (digits administrator.toNat ++ ':' :: digits assigned.toNat) := by
  simp only [textOf, String.toList_append, toList_decimalText, List.append_assoc]
  rfl

/-- Such a text writes what the numbers have room for. -/
theorem read?_textOf (kind : ExtendedKind) (administrator assigned : UInt32) :
    read? (textOf kind administrator assigned).toList = of? kind administrator assigned := by
  obtain ⟨hcolon, -, hkind⟩ := keyword_spec kind
  rw [toList_textOf, read?, Text.cut_append hcolon]
  simp only [Option.bind_eq_bind, Option.bind_some, hkind, Text.cut_append (colon_not_mem_digits _),
    word32?_digits]

/-- The other grammars read nothing that begins with the word of an extended community. -/
theorem others_of_keyword (kind : ExtendedKind) (rest : List Char) :
    StandardCommunity.read? (kind.keyword.toList ++ ':' :: rest) = none ∧
      LargeCommunity.read? (kind.keyword.toList ++ ':' :: rest) = none := by
  obtain ⟨hcolon, ⟨c, hc, hdigit⟩, -⟩ := keyword_spec kind
  have hword : kind.keyword.toList ≠ "large".toList := by cases kind <;> decide
  exact ⟨StandardCommunity.read?_of_word hcolon hc hdigit,
    LargeCommunity.read?_of_word hcolon hc hdigit hword⟩

/-- The other grammars do not read it. -/
theorem others_textOf (kind : ExtendedKind) (administrator assigned : UInt32) :
    StandardCommunity.read? (textOf kind administrator assigned).toList = none ∧
      LargeCommunity.read? (textOf kind administrator assigned).toList = none := by
  rw [toList_textOf]
  exact others_of_keyword kind _

/-- **Two numbers after a word** write the extended community that has room for them, and no
community at all if there is none. -/
theorem community_textOf (kind : ExtendedKind) (administrator assigned : UInt32) :
    Community.read? (textOf kind administrator assigned) =
      (of? kind administrator assigned).map .extended := by
  obtain ⟨hstandard, hlarge⟩ := others_textOf kind administrator assigned
  rw [Community.read?, hstandard, hlarge, read?_textOf, Option.map_none, Option.map_none,
    Option.none_or, Option.or_none]

end ExtendedCommunity

namespace Community

/-! ### Grammars -/

/-- **A text is read by one grammar**: that of its community, as just this community. -/
theorem grammar_text (c : Community) :
    (∀ s, StandardCommunity.read? c.text.toList = some s ↔ c = .standard s) ∧
      (∀ e, ExtendedCommunity.read? c.text.toList = some e ↔ c = .extended e) ∧
      ∀ l, LargeCommunity.read? c.text.toList = some l ↔ c = .large l := by
  cases c with
  | standard c =>
    have hextended : ExtendedCommunity.read? c.text.toList = none := by
      rw [StandardCommunity.toList_text, ExtendedCommunity.read?_colonNumbers]
    have hlarge : LargeCommunity.read? c.text.toList = none := by
      rw [StandardCommunity.toList_text, LargeCommunity.read?_colonNumbers]
    simp [text, hextended, hlarge, StandardCommunity.read?_text]
  | extended c =>
    obtain ⟨hstandard, hlarge⟩ :=
      ExtendedCommunity.others_textOf c.kind c.administrator c.assigned
    have htext : ExtendedCommunity.textOf c.kind c.administrator c.assigned = c.text := rfl
    rw [htext] at hstandard hlarge
    simp [text, hstandard, hlarge, ExtendedCommunity.read?_text]
  | large c =>
    obtain ⟨hstandard, hextended⟩ := read_largeText c
    simp [text, hstandard, hextended, LargeCommunity.read?_text]

/-! ### Normal texts -/

/-- The text of the community that a text writes. -/
def normal? (t : String) : Option String := (read? t).map text

/-- Texts have one normal text exactly if they are read alike. -/
theorem normal?_eq_iff (t t' : String) : normal? t = normal? t' ↔ read? t = read? t' :=
  ⟨fun h => Option.map_injective (fun _ _ => text_injective) h, congrArg (Option.map text)⟩

/-- A normal text is its own normal text. -/
theorem normal?_bind_normal? (t : String) : (normal? t).bind normal? = normal? t := by
  rw [normal?]
  cases read? t with
  | none => rfl
  | some c => rw [Option.map_some, Option.bind_some, normal?, read?_text, Option.map_some]

/-- **Communities are read back** from their texts. Every community is: its own grammar reads it as
just this community, and no other grammar reads it. An extended community is written and read back
for any two numbers that it has room for; those that it has no room for write nothing. Reading a
text and writing it again is settled after one time, and it has the same result for two texts
exactly if they are read alike. -/
theorem text_roundTrip :
    (∀ c : Community, read? c.text = some c ∧
      (∀ s, StandardCommunity.read? c.text.toList = some s ↔ c = .standard s) ∧
      (∀ e, ExtendedCommunity.read? c.text.toList = some e ↔ c = .extended e) ∧
      ∀ l, LargeCommunity.read? c.text.toList = some l ↔ c = .large l) ∧
    (∀ kind administrator assigned,
      read? (ExtendedCommunity.textOf kind administrator assigned) =
        (ExtendedCommunity.of? kind administrator assigned).map .extended ∧
      ((ExtendedCommunity.of? kind administrator assigned).isSome = true ↔
        administrator.toNat ≤ 65535 ∨ assigned.toNat ≤ 65535)) ∧
    (∀ t, (normal? t).bind normal? = normal? t) ∧
    ∀ t t', normal? t = normal? t' ↔ read? t = read? t' := by
  refine ⟨fun c => ⟨read?_text c, grammar_text c⟩, fun kind administrator assigned =>
    ⟨ExtendedCommunity.community_textOf kind administrator assigned, ?_⟩, normal?_bind_normal?,
    normal?_eq_iff⟩
  rw [ExtendedCommunity.of?]
  split
  · rename_i h
    exact iff_of_true rfl (h.imp Nat.le_of_lt_succ Nat.le_of_lt_succ)
  · rename_i h
    exact iff_of_false Bool.false_ne_true fun h' => h (h'.imp Nat.lt_succ_of_le Nat.lt_succ_of_le)

end Community
end RouteSolver
