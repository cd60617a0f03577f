/-
# Numbering by key

`number` gives members of a list one number exactly when they have one key (`codes_eq_iff`), and
keeps the first member of each number (`Numbering.exists_first`). While the list is numbered, the
table of keys finds exactly the first members (`Indexes`); the same holds of the states that a walk
over a machine meets.

An alphabet is well formed (`Alphabet.Valid`) when every letter is numbered by its least byte. The
alphabets made by `number` are (`Alphabet.valid_ofKey`), and their letters are the keys
(`Alphabet.letter_ofKey_eq_iff`).
-/

import RouteSolver.Automaton.Alphabet
import Mathlib.Data.List.Perm.Subperm
import Mathlib.Data.List.Sort

namespace RouteSolver

/-! ### Arrays that grow -/

section
variable {α : Type} {xs : Array α} {x y : α} {i : Nat}

theorem getElem?_push_eq_some_iff :
    (xs.push x)[i]? = some y ↔ xs[i]? = some y ∨ i = xs.size ∧ y = x := by
  rw [Array.getElem?_push]
  split
  · rename_i hi
    rw [hi, Array.getElem?_size, Option.some.injEq]
    exact ⟨fun h => .inr ⟨rfl, h.symm⟩, fun h => h.elim nofun fun h => h.2.symm⟩
  · rename_i hi
    exact (or_iff_left fun h => hi h.1).symm

theorem getElem?_push_of_eq_some (h : xs[i]? = some y) : (xs.push x)[i]? = some y :=
  getElem?_push_eq_some_iff.2 (.inl h)

end

/-! ### Numbers of the members of a list -/

section
variable {α κ : Type} {key : α → κ}

/-- The numbers of a list: member `i` has the number of the first member with its key. -/
structure Numbering (key : α → κ) (xs : List α) (n : Numbered α) : Prop where
  size_codes : n.codes.size = xs.length
  firsts_sublist : n.firsts.toList.Sublist xs
  first_of : ∀ (i : Nat) (x : α), xs[i]? = some x → ∃ (c j : Nat) (y : α), n.codes[i]? = some c ∧
    n.firsts[c]? = some y ∧ key y = key x ∧ j ≤ i ∧ xs[j]? = some y
  eq_of_key_eq : ∀ (c d : Nat) (x y : α), n.firsts[c]? = some x → n.firsts[d]? = some y →
    key x = key y → c = d

namespace Numbering

variable {xs : List α} {n : Numbered α} {i j : Nat} {x y : α}

theorem exists_first (h : Numbering key xs n) (hx : xs[i]? = some x) :
    ∃ (k : Nat) (z : α), n.firsts[n.codes.getD i 0]? = some z ∧ key z = key x ∧ k ≤ i ∧
      xs[k]? = some z := by
  obtain ⟨c, k, z, hc, hz⟩ := h.first_of i x hx
  rw [Array.getD_eq_getD_getElem?, hc, Option.getD_some]
  exact ⟨k, z, hz⟩

theorem code_lt (h : Numbering key xs n) (hx : xs[i]? = some x) :
    n.codes.getD i 0 < n.firsts.size := by
  obtain ⟨_, _, hz, -⟩ := h.exists_first hx
  exact (Array.getElem?_eq_some_iff.1 hz).1

/-- **Members have one number** exactly when they have one key. -/
theorem code_eq_iff (h : Numbering key xs n) (hx : xs[i]? = some x) (hy : xs[j]? = some y) :
    n.codes.getD i 0 = n.codes.getD j 0 ↔ key x = key y := by
  obtain ⟨_, u, hu, hux, -⟩ := h.exists_first hx
  obtain ⟨_, w, hw, hwy, -⟩ := h.exists_first hy
  constructor
  · intro heq
    rw [heq, hw, Option.some.injEq] at hu
    rw [← hux, ← hwy, hu]
  · exact fun heq => h.eq_of_key_eq _ _ u w hu hw (by rw [hux, hwy, heq])

/-- The first member with a number has that number. -/
theorem code_first (h : Numbering key xs n) {c : Nat} (hc : n.firsts[c]? = some x)
    (hx : xs[i]? = some x) : n.codes.getD i 0 = c := by
  obtain ⟨_, u, hu, hux, -⟩ := h.exists_first hx
  exact h.eq_of_key_eq _ _ u x hu hc hux

theorem mem_of_first (h : Numbering key xs n) {c : Nat} (hc : n.firsts[c]? = some x) : x ∈ xs :=
  h.firsts_sublist.mem (Array.mem_toList_iff.2 (Array.mem_of_getElem? hc))

/-- One more member is numbered by a first member with its key. The others keep their numbers. -/
theorem first_of_concat (h : Numbering key xs n) {c : Nat} {firsts : Array α}
    (hgrow : ∀ (d : Nat) (y : α), n.firsts[d]? = some y → firsts[d]? = some y)
    (hc : firsts[c]? = some y) (hyx : key y = key x) (hj : (xs ++ [x])[j]? = some y) :
    ∀ (i : Nat) (z : α), (xs ++ [x])[i]? = some z → ∃ (d j : Nat) (y : α),
      (n.codes.push c)[i]? = some d ∧ firsts[d]? = some y ∧ key y = key z ∧ j ≤ i ∧
        (xs ++ [x])[j]? = some y := by
  intro i z hz
  have hlt : ∀ {k : Nat} {u : α}, (xs ++ [x])[k]? = some u → k < xs.length + 1 := fun hk => by
    obtain ⟨hk, -⟩ := List.getElem?_eq_some_iff.1 hk
    rwa [List.length_append, List.length_singleton] at hk
  rcases Nat.lt_succ_iff_lt_or_eq.1 (hlt hz) with hi | rfl
  · rw [List.getElem?_append_left hi] at hz
    obtain ⟨d, k, y, hd, hy, hyz, hki, hky⟩ := h.first_of i z hz
    refine ⟨d, k, y, getElem?_push_of_eq_some hd, hgrow d y hy, hyz, hki, ?_⟩
    rwa [List.getElem?_append_left (Nat.lt_of_le_of_lt hki hi)]
  · rw [List.getElem?_concat_length, Option.some.injEq] at hz
    subst hz
    exact ⟨c, j, y, by rw [← h.size_codes, Array.getElem?_push_size], hc, hyx,
      Nat.le_of_lt_succ (hlt hj), hj⟩

theorem size_codes_push (h : Numbering key xs n) (c : Nat) (x : α) :
    (n.codes.push c).size = (xs ++ [x]).length := by
  rw [Array.size_push, h.size_codes, List.length_append, List.length_singleton]

/-- A member with a known key is given the number of that key. -/
theorem concat_known (h : Numbering key xs n) {c : Nat} (hc : n.firsts[c]? = some y)
    (hyx : key y = key x) : Numbering key (xs ++ [x]) ⟨n.codes.push c, n.firsts⟩ := by
  obtain ⟨j, hj⟩ := List.getElem?_of_mem (List.mem_append_left [x] (h.mem_of_first hc))
  exact {
    size_codes := h.size_codes_push c x
    firsts_sublist := h.firsts_sublist.trans (List.sublist_append_left _ _)
    first_of := h.first_of_concat (fun _ _ hd => hd) hc hyx hj
    eq_of_key_eq := h.eq_of_key_eq }

/-- A member with a new key is the first one with a new number. -/
theorem concat_new (h : Numbering key xs n)
    (hx : ∀ (c : Nat) (y : α), n.firsts[c]? = some y → key y ≠ key x) :
    Numbering key (xs ++ [x]) ⟨n.codes.push n.firsts.size, n.firsts.push x⟩ where
  size_codes := h.size_codes_push _ x
  firsts_sublist := by
    rw [Array.toList_push]
    exact h.firsts_sublist.append (List.Sublist.refl _)
  first_of := h.first_of_concat (fun _ _ => getElem?_push_of_eq_some) Array.getElem?_push_size rfl
    List.getElem?_concat_length
  eq_of_key_eq c d y z hc hd hyz := by
    rcases getElem?_push_eq_some_iff.1 hc with hy | ⟨rfl, rfl⟩ <;>
      rcases getElem?_push_eq_some_iff.1 hd with hz | ⟨rfl, rfl⟩
    · exact h.eq_of_key_eq c d y z hy hz hyz
    · exact absurd hyz (hx c y hy)
    · exact absurd hyz.symm (hx d z hz)
    · rfl

end Numbering
end

section
variable {α κ : Type} [BEq κ] [Hashable κ] {key : α → κ} {known : Std.HashMap κ Nat}
  {firsts : Array α}

/-- The table finds the listed members by their keys, and nothing else. -/
def Indexes (key : α → κ) (known : Std.HashMap κ Nat) (firsts : Array α) : Prop :=
  ∀ (k : κ) (i : Nat), known[k]? = some i ↔ ∃ x, firsts[i]? = some x ∧ key x = k

namespace Indexes

theorem empty (key : α → κ) : Indexes key ∅ #[] := by
  intro k i
  rw [Std.HashMap.getElem?_empty, Array.getElem?_empty]
  exact ⟨nofun, fun ⟨x, hx, _⟩ => nomatch hx⟩

/-- No two listed members have one key. -/
theorem eq_of_key_eq (h : Indexes key known firsts) {i j : Nat} {x y : α}
    (hx : firsts[i]? = some x) (hy : firsts[j]? = some y) (hxy : key x = key y) : i = j := by
  have hi := (h (key x) i).2 ⟨x, hx, rfl⟩
  have hj := (h (key x) j).2 ⟨y, hy, hxy.symm⟩
  exact Option.some.inj (hi.symm.trans hj)

/-- A member with a new key goes to the end of the list. -/
theorem push [LawfulBEq κ] (h : Indexes key known firsts) {x : α} (hx : known[key x]? = none) :
    Indexes key (known.insert (key x) firsts.size) (firsts.push x) := by
  intro k i
  rw [Std.HashMap.getElem?_insert]
  simp only [getElem?_push_eq_some_iff]
  by_cases hk : key x = k
  · subst hk
    rw [if_pos (beq_self_eq_true _), Option.some.injEq]
    constructor
    · rintro rfl
      exact ⟨x, .inr ⟨rfl, rfl⟩, rfl⟩
    · rintro ⟨y, hy | ⟨hi, -⟩, hyx⟩
      · have hsome := (h (key x) i).2 ⟨y, hy, hyx⟩
        exact absurd (hx.symm.trans hsome) nofun
      · exact hi.symm
  · rw [if_neg (by simpa using hk), h k i]
    refine exists_congr fun y => and_congr_left fun hy => (or_iff_left ?_).symm
    rintro ⟨-, rfl⟩
    exact hk hy

end Indexes

variable [LawfulBEq κ]

theorem numbering_extend {n : Numbered α} {ys xs : List α} (hknown : Indexes key known n.firsts)
    (hn : Numbering key ys n) : Numbering key (ys ++ xs) (n.extend key known xs) := by
  induction xs generalizing known n ys with
  | nil => rwa [Numbered.extend, List.append_nil]
  | cons x xs ih =>
    rw [Numbered.extend, List.append_cons]
    dsimp only
    split
    · rename_i c hc
      obtain ⟨y, hy, hyx⟩ := (hknown _ c).1 hc
      exact ih hknown (hn.concat_known hy hyx)
    · rename_i hnone
      refine ih (hknown.push hnone) (hn.concat_new fun c y hy hyx => ?_)
      have hsome := (hknown (key x) c).2 ⟨y, hy, hyx⟩
      exact absurd (hnone.symm.trans hsome) nofun

/-- **Numbering a list** numbers it by key. -/
theorem numbering_number (key : α → κ) (xs : List α) : Numbering key xs (number key xs) := by
  have hempty : Numbering key [] (⟨#[], #[]⟩ : Numbered α) := {
    size_codes := rfl
    firsts_sublist := List.Sublist.refl _
    first_of := fun i x h => nomatch h
    eq_of_key_eq := fun c d x y h => nomatch h }
  have h : Numbering key ([] ++ xs) (number key xs) := numbering_extend (.empty key) hempty
  rwa [List.nil_append] at h

end

/-! ### Alphabets -/

theorem getElem?_allBytes_toNat (b : UInt8) : allBytes[b.toNat]? = some b := by
  rw [allBytes, List.getElem?_map, List.getElem?_range b.toNat_lt, Option.map_some,
    UInt8.ofNat_toNat]

theorem le_of_getElem?_allBytes {b c : UInt8} {i : Nat} (hi : i ≤ b.toNat)
    (hc : allBytes[i]? = some c) : c ≤ b := by
  have hlt : i < 256 := Nat.lt_of_le_of_lt hi b.toNat_lt
  rw [allBytes, List.getElem?_map, List.getElem?_range hlt, Option.map_some,
    Option.some.injEq] at hc
  rw [← hc, UInt8.le_iff_toNat_le, UInt8.toNat_ofNat_of_lt' hlt]
  exact hi

theorem pairwise_allBytes : allBytes.Pairwise (· < ·) := by
  rw [allBytes, List.pairwise_map]
  refine List.pairwise_lt_range.imp_of_mem fun {i j} hi hj hij => ?_
  rw [List.mem_range] at hi hj
  rwa [UInt8.lt_iff_toNat_lt, UInt8.toNat_ofNat_of_lt' hi, UInt8.toNat_ofNat_of_lt' hj]

namespace Alphabet

/-- Every letter is numbered by its least byte, which represents it. -/
structure Valid (a : Alphabet) : Prop where
  size_letterOf : a.letterOf.size = 256
  exists_representative : ∀ b : UInt8, ∃ r, a.representatives[a.letter b]? = some r ∧ r ≤ b
  letter_representative : ∀ (c : Nat) (r : UInt8), a.representatives[c]? = some r → a.letter r = c
  ascending : a.representatives.toList.Pairwise (· < ·)

theorem Valid.letter_lt {a : Alphabet} (h : a.Valid) (b : UInt8) :
    a.letter b < a.representatives.size := by
  obtain ⟨_, hr, -⟩ := h.exists_representative b
  exact (Array.getElem?_eq_some_iff.1 hr).1

theorem Valid.lt_of_lt {a : Alphabet} (h : a.Valid) {c d : Nat} {r r' : UInt8}
    (hr : a.representatives[c]? = some r) (hr' : a.representatives[d]? = some r') (hcd : c < d) :
    r < r' := by
  obtain ⟨hc, rfl⟩ := Array.getElem?_eq_some_iff.1 hr
  obtain ⟨hd, rfl⟩ := Array.getElem?_eq_some_iff.1 hr'
  exact List.pairwise_iff_getElem.1 h.ascending c d (Array.length_toList ▸ hc)
    (Array.length_toList ▸ hd) hcd

/-- Bytes before a representative are of earlier letters. -/
theorem Valid.letter_lt_of_lt {a : Alphabet} (h : a.Valid) {c : Nat} {r b : UInt8}
    (hr : a.representatives[c]? = some r) (hb : b < r) : a.letter b < c := by
  obtain ⟨r', hr', hle⟩ := h.exists_representative b
  by_contra hge
  rcases Nat.lt_or_eq_of_le (Nat.not_lt.1 hge) with hlt | heq
  · have := h.lt_of_lt hr hr' hlt
    exact absurd (UInt8.lt_of_le_of_lt hle (UInt8.lt_trans hb this)) (UInt8.lt_irrefl _)
  · rw [← heq, hr, Option.some.injEq] at hr'
    exact absurd (UInt8.lt_of_le_of_lt (hr' ▸ hle) hb) (UInt8.lt_irrefl _)

theorem Valid.size_representatives_le {a : Alphabet} (h : a.Valid) :
    a.representatives.size ≤ 256 := by
  have hnodup : (a.representatives.toList.map UInt8.toNat).Nodup :=
    List.pairwise_map.2 (h.ascending.imp fun hlt => Nat.ne_of_lt (UInt8.lt_iff_toNat_lt.1 hlt))
  have hsub : a.representatives.toList.map UInt8.toNat ⊆ List.range 256 := by
    intro n hn
    obtain ⟨b, -, rfl⟩ := List.mem_map.1 hn
    exact List.mem_range.2 b.toNat_lt
  have hle := (List.subperm_of_subset hnodup hsub).length_le
  rwa [List.length_map, Array.length_toList, List.length_range] at hle

section
variable {κ : Type} [BEq κ] [LawfulBEq κ] [Hashable κ] (key : UInt8 → κ)

/-- The alphabet of a key is well formed. -/
theorem valid_ofKey : (ofKey key).Valid := by
  have h := numbering_number key allBytes
  refine {
    size_letterOf := h.size_codes.trans (by rw [allBytes, List.length_map, List.length_range])
    exists_representative := fun b => ?_
    letter_representative := fun c r hr => ?_
    ascending := pairwise_allBytes.sublist h.firsts_sublist }
  · obtain ⟨j, r, hr, -, hj, hjr⟩ := h.exists_first (getElem?_allBytes_toNat b)
    exact ⟨r, hr, le_of_getElem?_allBytes hj hjr⟩
  · exact h.code_first hr (getElem?_allBytes_toNat r)

/-- **Two bytes are one letter** exactly when they have one key. -/
theorem letter_ofKey_eq_iff (b c : UInt8) :
    (ofKey key).letter b = (ofKey key).letter c ↔ key b = key c :=
  (numbering_number key allBytes).code_eq_iff (getElem?_allBytes_toNat b)
    (getElem?_allBytes_toNat c)

end

/-- The representatives are the bytes that are the least of their letters. -/
theorem Valid.mem_representatives_iff {a : Alphabet} (h : a.Valid) (r : UInt8) :
    r ∈ a.representatives.toList ↔ ∀ x, a.letter x = a.letter r → r ≤ x := by
  constructor
  · intro hr x hx
    obtain ⟨c, hc⟩ := Array.getElem?_of_mem (Array.mem_toList_iff.1 hr)
    obtain ⟨r', hr', hle⟩ := h.exists_representative x
    rw [hx, h.letter_representative c r hc, hc, Option.some.injEq] at hr'
    exact hr' ▸ hle
  · intro hleast
    obtain ⟨r', hr', hle⟩ := h.exists_representative r
    have heq := UInt8.le_antisymm hle (hleast r' (h.letter_representative _ r' hr'))
    exact Array.mem_toList_iff.2 (heq ▸ Array.mem_of_getElem? hr')

/-- **An alphabet is told by its letters**: by which bytes are one. -/
theorem Valid.eq_of_letter_eq_iff {a b : Alphabet} (ha : a.Valid) (hb : b.Valid)
    (h : ∀ x y, a.letter x = a.letter y ↔ b.letter x = b.letter y) : a = b := by
  have hreps : a.representatives = b.representatives := by
    refine Array.toList_inj.1 (ha.ascending.eq_of_mem_iff hb.ascending fun r => ?_)
    rw [ha.mem_representatives_iff, hb.mem_representatives_iff]
    simp only [h]
  have hletter : ∀ x, a.letter x = b.letter x := fun x => by
    obtain ⟨r, hr, -⟩ := ha.exists_representative x
    calc a.letter x = b.letter r := (hb.letter_representative _ r (hreps ▸ hr)).symm
      _ = b.letter x := (h r x).1 (ha.letter_representative _ r hr)
  have hletterOf : a.letterOf = b.letterOf := by
    refine Array.ext (ha.size_letterOf.trans hb.size_letterOf.symm) fun i hi hi' => ?_
    have hlt : i < 256 := ha.size_letterOf ▸ hi
    have heq := hletter (UInt8.ofNat i)
    rwa [letter, letter, UInt8.toNat_ofNat_of_lt' hlt, Array.getD_eq_getD_getElem?,
      Array.getD_eq_getD_getElem?, Array.getElem?_eq_getElem hi, Array.getElem?_eq_getElem hi',
      Option.getD_some, Option.getD_some] at heq
  cases a
  cases b
  exact congrArg₂ Alphabet.mk hletterOf hreps

/-- Bytes that are one letter of the common refinement are one letter of both alphabets. -/
theorem letter_meet_eq_iff {a b : Alphabet} (hb : b.Valid) (x y : UInt8) :
    (a.meet b).letter x = (a.meet b).letter y ↔
      a.letter x = a.letter y ∧ b.letter x = b.letter y := by
  rw [meet, letter_ofKey_eq_iff]
  constructor
  · intro h
    have hx := hb.letter_lt x
    have hy := hb.letter_lt y
    have hmod := congrArg (· % b.representatives.size) h
    simp only [Nat.mul_add_mod', Nat.mod_eq_of_lt hx, Nat.mod_eq_of_lt hy] at hmod
    rw [hmod, Nat.add_right_cancel_iff] at h
    exact ⟨Nat.eq_of_mul_eq_mul_right (Nat.zero_lt_of_lt hx) h, hmod⟩
  · rintro ⟨ha, hb⟩
    rw [ha, hb]

end Alphabet
end RouteSolver
