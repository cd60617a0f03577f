/-
# Classes without brackets inside

Such a class is read piece by piece: operators, ranges, and single characters or escapes. A piece
does not look at what stands after the class (`exists_takes_range`), with one exception: a dash
after the last single character stands for itself before the closing bracket, but makes a range with
a character that is put between the two (`OpenDash`).
-/

import RouteSolver.Regex.Bracket
import Mathlib.Data.List.Basic

namespace RouteSolver
namespace Regex
namespace Bracket

/-! ### Texts without brackets -/

/-- None of the characters to avoid but after a backslash, and no backslash at the end. -/
inductive Without (avoid : List Char) : List Char → Prop
  | nil : Without avoid []
  | escaped (c : Char) {cs : List Char} (h : Without avoid cs) : Without avoid ('\\' :: c :: cs)
  | char {c : Char} {cs : List Char} (hc : c ∉ '\\' :: avoid) (h : Without avoid cs) :
    Without avoid (c :: cs)

/-- No brackets. -/
abbrev Plain (cs : List Char) : Prop := Without ['[', ']'] cs

section
variable {avoid : List Char} {c : Char} {cs : List Char}

theorem Without.tail (h : Without avoid (c :: cs)) (hc : c ≠ '\\') : Without avoid cs := by
  cases h with
  | escaped d h => exact absurd rfl hc
  | char _ h => exact h

theorem Without.not_mem (h : Without avoid (c :: cs)) (havoid : '\\' ∉ avoid) : c ∉ avoid := by
  cases h with
  | escaped d h => exact havoid
  | char hc h => exact fun hmem => hc (List.mem_cons_of_mem _ hmem)

end

section
variable {α β : Type} {f : List Char → Option (α × List Char)} {cs cs' : List Char} {a : α}

/-- `f` takes `a` from the beginning of `cs` and leaves `cs'`, whatever stands after `cs`. -/
structure Takes (f : List Char → Option (α × List Char)) (cs : List Char) (a : α)
    (cs' : List Char) : Prop where
  plain : Plain cs'
  length_le : cs'.length ≤ cs.length
  eq (tail : List Char) : f (cs ++ tail) = some (a, cs' ++ tail)

theorem Takes.map (h : Takes f cs a cs') (g : α → β) :
    Takes (fun cs => (f cs).map fun r => (g r.1, r.2)) cs (g a) cs' :=
  ⟨h.plain, h.length_le, fun tail => by rw [h.eq]; rfl⟩

end

/-! ### Escapes -/

section
variable {c : Char} {cs rest out : List Char} {n bound code : Nat} {p : Primitive}

theorem ahead_false (cs : List Char) : ahead false cs = cs := rfl

theorem exists_takes_hexDigits {acc : Nat} (hcs : Plain cs)
    (h : hexDigits false n acc (cs ++ ']' :: rest) = some (code, out)) :
    ∃ cs', Takes (hexDigits false n acc) cs code cs' := by
  induction n generalizing acc cs with
  | zero =>
    obtain ⟨rfl, -⟩ := Prod.mk.inj (Option.some.inj h)
    exact ⟨cs, hcs, Nat.le_refl _, fun _ => rfl⟩
  | succ n ih =>
    cases cs with
    | nil => cases h
    | cons c cs =>
      rw [List.cons_append, hexDigits] at h
      obtain ⟨d, hd, h⟩ := Option.bind_eq_some_iff.1 h
      have hc : c ≠ '\\' := by
        rintro rfl
        cases hd
      obtain ⟨cs', hcs', hlen, heq⟩ := ih (hcs.tail hc) h
      refine ⟨cs', hcs', Nat.le_succ_of_le hlen, fun tail => ?_⟩
      rw [List.cons_append, hexDigits, hd]
      exact heq tail

theorem exists_takes_bracedDigits {acc : Option Nat} (hcs : Plain cs)
    (h : bracedDigits false bound acc (cs ++ ']' :: rest) = some (code, out)) :
    ∃ cs', Plain cs' ∧ cs'.length ≤ cs.length ∧ ∀ bound tail, cs.length ≤ bound →
      bracedDigits false bound acc (cs ++ tail) = some (code, cs' ++ tail) := by
  induction cs generalizing acc bound with
  | nil =>
    cases bound with
    | zero => cases h
    | succ bound => cases h
  | cons c cs ih =>
    cases bound with
    | zero => cases h
    | succ bound =>
      have hstep : ∀ bound tail, bracedDigits false (bound + 1) acc (c :: cs ++ tail) =
          if c = '}' then acc.map fun n => (n, cs ++ tail)
          else (hexDigit? c).bind fun d =>
            bracedDigits false bound (some (acc.getD 0 * 16 + d)) (cs ++ tail) :=
        fun _ _ => rfl
      rw [hstep] at h
      by_cases hc : c = '}'
      · rw [if_pos hc] at h
        obtain ⟨n, rfl, hn⟩ := Option.map_eq_some_iff.1 h
        obtain ⟨rfl, -⟩ := Prod.mk.inj hn
        refine ⟨cs, hcs.tail (hc ▸ by decide), Nat.le_succ _, fun bound tail hbound => ?_⟩
        obtain ⟨bound, rfl⟩ := Nat.exists_eq_add_one_of_ne_zero (Nat.ne_zero_of_lt hbound)
        rw [hstep, if_pos hc]
        rfl
      · rw [if_neg hc] at h
        obtain ⟨d, hd, h⟩ := Option.bind_eq_some_iff.1 h
        have hback : c ≠ '\\' := by
          rintro rfl
          cases hd
        obtain ⟨cs', hcs', hlen, heq⟩ := ih (hcs.tail hback) h
        refine ⟨cs', hcs', Nat.le_succ_of_le hlen, fun bound tail hbound => ?_⟩
        obtain ⟨bound, rfl⟩ := Nat.exists_eq_add_one_of_ne_zero (Nat.ne_zero_of_lt hbound)
        rw [hstep, if_neg hc, hd]
        exact heq bound tail (Nat.le_of_succ_le_succ hbound)

theorem hexLiteral_braced (n : Nat) (cs : List Char) : hexLiteral false n ('{' :: cs) =
    (bracedDigits false (cs.length + 1) none cs).bind fun r =>
      (charOf? r.1).map fun c => (⟨c, false⟩, r.2) := by
  simp only [hexLiteral, ahead_false, Option.bind_eq_bind, Option.map_eq_bind]
  rfl

theorem hexLiteral_digits (n : Nat) (hhead : cs.head? ≠ some '{') : hexLiteral false n cs =
    (hexDigits false n 0 cs).bind fun r => (charOf? r.1).map fun c => (⟨c, n = 2⟩, r.2) := by
  rw [hexLiteral, ahead_false]
  split
  · exact absurd rfl hhead
  · simp only [Option.bind_eq_bind, Option.map_eq_bind]
    rfl

theorem exists_takes_hexLiteral_braced {l : Literal} (hcs : Plain cs)
    (h : hexLiteral false n ('{' :: (cs ++ ']' :: rest)) = some (l, out)) :
    ∃ cs', Takes (hexLiteral false n) ('{' :: cs) l cs' := by
  rw [hexLiteral_braced] at h
  obtain ⟨⟨code, out'⟩, hcode, h⟩ := Option.bind_eq_some_iff.1 h
  obtain ⟨c, hc, hl⟩ := Option.map_eq_some_iff.1 h
  obtain ⟨rfl, -⟩ := Prod.mk.inj hl
  obtain ⟨cs', hcs', hlen, heq⟩ := exists_takes_bracedDigits hcs hcode
  refine ⟨cs', hcs', Nat.le_succ_of_le hlen, fun tail => ?_⟩
  have hbound : cs.length ≤ (cs ++ tail).length + 1 := by
    rw [List.length_append]
    omega
  rw [List.cons_append, hexLiteral_braced, heq _ tail hbound, Option.bind_some, hc]
  rfl

theorem exists_takes_hexLiteral_digits {l : Literal} (hn : 0 < n) (hcs : Plain cs)
    (hhead : cs.head? ≠ some '{') (h : hexLiteral false n (cs ++ ']' :: rest) = some (l, out)) :
    ∃ cs', Takes (hexLiteral false n) cs l cs' := by
  -- some digit has to be there, and the closing bracket is none
  have hne : cs ≠ [] := by
    rintro rfl
    obtain ⟨n, rfl⟩ := Nat.exists_eq_add_of_lt hn
    have hhead' : (']' :: rest).head? ≠ some '{' := fun h => by cases h
    rw [List.nil_append, hexLiteral_digits _ hhead'] at h
    cases h
  have happend : ∀ tail, (cs ++ tail).head? ≠ some '{' := fun tail => by
    rwa [List.head?_append_of_ne_nil cs hne]
  rw [hexLiteral_digits _ (happend _)] at h
  obtain ⟨⟨code, out'⟩, hcode, h⟩ := Option.bind_eq_some_iff.1 h
  obtain ⟨c, hc, hl⟩ := Option.map_eq_some_iff.1 h
  obtain ⟨rfl, -⟩ := Prod.mk.inj hl
  obtain ⟨cs', hcs', hlen, heq⟩ := exists_takes_hexDigits hcs hcode
  refine ⟨cs', hcs', hlen, fun tail => ?_⟩
  rw [hexLiteral_digits _ (happend _), heq, Option.bind_some, hc]
  rfl

theorem exists_takes_hexLiteral {l : Literal} (hn : 0 < n) (hcs : Plain cs)
    (h : hexLiteral false n (cs ++ ']' :: rest) = some (l, out)) :
    ∃ cs', Takes (hexLiteral false n) cs l cs' := by
  by_cases hhead : cs.head? = some '{'
  · obtain ⟨cs, rfl⟩ := List.head?_eq_some_iff.1 hhead
    exact exists_takes_hexLiteral_braced (hcs.tail (by decide)) h
  · exact exists_takes_hexLiteral_digits hn hcs hhead h

/-- An escape is a number, an anchor, or its letter alone. -/
theorem escape_cases (c : Char) :
    (∃ n, 0 < n ∧ ∀ cs, escape false (c :: cs) =
      (hexLiteral false n cs).map fun r => (.literal r.1, r.2)) ∨
    (∀ cs, escape false (c :: cs) =
      (wordBoundary false cs).map fun r => (.anchor r.1, r.2)) ∨
    ∃ o : Option Primitive, ∀ cs, escape false (c :: cs) = o.map fun p => (p, cs) := by
  by_cases hx : c = 'x'
  · exact .inl ⟨2, by decide, fun _ => by rw [hx]; rfl⟩
  by_cases hu : c = 'u'
  · exact .inl ⟨4, by decide, fun _ => by rw [hu]; rfl⟩
  by_cases hU : c = 'U'
  · exact .inl ⟨8, by decide, fun _ => by rw [hU]; rfl⟩
  by_cases hb : c = 'b'
  · exact .inr (.inl fun _ => by rw [hb]; rfl)
  · refine .inr (.inr ⟨(escape false [c]).map (·.1), fun cs => ?_⟩)
    unfold escape
    dsimp only
    split
    all_goals first | contradiction | rfl | skip
    cases standsForItself c <;> rfl

theorem exists_takes_escape (hcs : Plain cs) (hp : ∀ a, p ≠ .anchor a)
    (h : escape false (c :: (cs ++ ']' :: rest)) = some (p, out)) :
    ∃ cs', Takes (fun cs => escape false (c :: cs)) cs p cs' := by
  obtain ⟨n, hn, hesc⟩ | hesc | ⟨o, hesc⟩ := escape_cases c
  · rw [hesc] at h
    obtain ⟨⟨l, out'⟩, hl, h⟩ := Option.map_eq_some_iff.1 h
    obtain ⟨rfl, -⟩ := Prod.mk.inj h
    obtain ⟨cs', htakes⟩ := exists_takes_hexLiteral hn hcs hl
    rw [funext hesc]
    exact ⟨cs', htakes.map _⟩
  · rw [hesc] at h
    obtain ⟨⟨a, out'⟩, -, h⟩ := Option.map_eq_some_iff.1 h
    exact absurd (Prod.mk.inj h).1.symm (hp a)
  · rw [hesc] at h
    obtain ⟨p', rfl, hpair⟩ := Option.map_eq_some_iff.1 h
    obtain ⟨rfl, -⟩ := Prod.mk.inj hpair
    exact ⟨cs, hcs, Nat.le_refl _, fun tail => hesc _⟩

/-! ### Characters, escapes and ranges -/

theorem item_char (h : c ≠ '\\') : item false (c :: cs) = some (.literal ⟨c, false⟩, cs) := by
  rw [item]
  exact fun hc => absurd hc h

/-- An item takes something. -/
theorem exists_takes_item (hcs : Plain cs) (hne : cs ≠ []) (hp : ∀ a, p ≠ .anchor a)
    (h : item false (cs ++ ']' :: rest) = some (p, out)) :
    ∃ cs', Takes (item false) cs p cs' ∧ cs'.length < cs.length := by
  cases hcs with
  | nil => exact absurd rfl hne
  | @escaped c cs hcs =>
    obtain ⟨cs', hcs', hlen, heq⟩ := exists_takes_escape hcs hp h
    have hlt : cs'.length < ('\\' :: c :: cs).length :=
      Nat.lt_succ_of_le (Nat.le_succ_of_le hlen)
    exact ⟨cs', ⟨hcs', Nat.le_of_lt hlt, heq⟩, hlt⟩
  | @char c cs hc hcs =>
    have hback : c ≠ '\\' := (ne_of_mem_of_not_mem (by decide) hc).symm
    rw [List.cons_append, item_char hback] at h
    obtain ⟨rfl, -⟩ := Prod.mk.inj (Option.some.inj h)
    exact ⟨cs, ⟨hcs, Nat.le_succ _, fun _ => item_char hback⟩, Nat.lt_succ_self _⟩

end

/-- The operator at the beginning of a text, and what comes after it. -/
def operator? : List Char → Option (ClassOperator × List Char)
  | '&' :: '&' :: cs => some (.intersection, cs)
  | '-' :: '-' :: cs => some (.difference, cs)
  | '~' :: '~' :: cs => some (.symmetricDifference, cs)
  | _ => none

/-- The last character stands alone but for a dash after it. A character that came after the dash
would make a range of the two. -/
inductive OpenDash : List Char → Prop
  | last {cs : List Char} {p : Primitive} (hop : operator? cs = none)
    (h : item false cs = some (p, ['-'])) : OpenDash cs
  | operator {cs cs' : List Char} {op : ClassOperator} (h : operator? cs = some (op, cs'))
    (h' : OpenDash cs') : OpenDash cs
  | single {cs cs' : List Char} {p : Primitive} (hop : operator? cs = none)
    (h : item false cs = some (p, cs')) (hdash : ∀ ds, cs' = '-' :: ds → ds.head? = some '-')
    (h' : OpenDash cs') : OpenDash cs
  | range {cs ds cs' : List Char} {p q : Primitive} (hop : operator? cs = none)
    (h : item false cs = some (p, '-' :: ds)) (hdash : ds.head? ≠ some '-')
    (hlast : item false ds = some (q, cs')) (h' : OpenDash cs') : OpenDash cs

section
variable {c d : Char} {cs cs' ds rest out : List Char} {p : Primitive} {t : ClassTree}

theorem range_of_single (h : item false cs = some (p, c :: ds))
    (hc : c ≠ '-' ∨ ds.head? = some ']' ∨ ds.head? = some '-') :
    range false cs = (asItem p).map fun t => (t, c :: ds) := by
  rw [range, h]
  simp only [Option.bind_eq_bind, Option.bind_some, ahead_false, afterDash, Bool.false_eq_true,
    if_false, if_pos hc, Option.map_eq_bind]
  rfl

theorem range_of_range (h : item false cs = some (p, '-' :: ds)) (hend : ds.head? ≠ some ']')
    (hdash : ds.head? ≠ some '-') : range false cs =
      (item false ds).bind fun r => (asEnd p).bind fun lo => (asEnd r.1).bind fun hi =>
        if lo.char ≤ hi.char then some (.range lo hi, r.2) else none := by
  have hnot : ¬('-' ≠ '-' ∨ ds.head? = some ']' ∨ ds.head? = some '-') := by
    rw [not_or, not_or]
    exact ⟨not_not.2 rfl, hend, hdash⟩
  rw [range, h]
  simp only [Option.bind_eq_bind, Option.bind_some, ahead_false, afterDash, Bool.false_eq_true,
    if_false, if_neg hnot]
  rfl

/-- An anchor is nothing in a class. -/
theorem range_of_anchor {a : Anchor} (h : item false cs = some (.anchor a, out)) :
    range false cs = none := by
  cases out with
  | nil => rw [range, h]; rfl
  | cons c ds =>
    by_cases hc : c ≠ '-' ∨ ds.head? = some ']' ∨ ds.head? = some '-'
    · rw [range_of_single h hc]
      rfl
    · rw [not_or, not_or, not_not] at hc
      obtain ⟨rfl, hend, hdash⟩ := hc
      rw [range_of_range h hend hdash]
      cases item false ds <;> rfl

theorem height_asItem (h : asItem p = some t) : t.height = 0 := by
  cases p with
  | literal l => cases h; rfl
  | short k negated => cases h; rfl
  | anchor a => cases h
  | dot => cases h

/-- What stands alone does so before any text that begins with no dash. -/
theorem range_of_takes_single (htakes : Takes (item false) cs p cs')
    (hdash : ∀ ds, cs' = '-' :: ds → ds.head? = some '-') (hd : d ≠ '-') (tail : List Char) :
    range false (cs ++ d :: tail) = (asItem p).map fun t => (t, cs' ++ d :: tail) := by
  have hitem := htakes.eq (d :: tail)
  cases cs' with
  | nil => exact range_of_single hitem (.inl hd)
  | cons c ds =>
    refine range_of_single hitem ?_
    by_cases hc : c = '-'
    · subst hc
      have hhead := hdash ds rfl
      cases ds with
      | nil => cases hhead
      | cons e ds => exact .inr (.inr hhead)
    · exact .inl hc

/-- `t` is the piece at the beginning of `cs`, and `cs'` is what comes after it. It is read alike
before every closing bracket, and before every backslash unless `cs` ends in an open dash. -/
structure Piece (cs : List Char) (t : ClassTree) (cs' : List Char) : Prop where
  plain : Plain cs'
  length_lt : cs'.length < cs.length
  height : t.height = 0
  closing (rest : List Char) : range false (cs ++ ']' :: rest) = some (t, cs' ++ ']' :: rest)
  openDash (hop : operator? cs = none) (h : OpenDash cs') : OpenDash cs
  escaping (hop : operator? cs = none) (h : ¬OpenDash cs) (tail : List Char) :
    range false (cs ++ '\\' :: tail) = some (t, cs' ++ '\\' :: tail)

theorem Takes.eq_some (h : Takes (item false) cs p cs') : item false cs = some (p, cs') := by
  have := h.eq []
  rwa [List.append_nil, List.append_nil] at this

section
variable (htakes : Takes (item false) cs p cs') (hlt : cs'.length < cs.length)
include htakes hlt

theorem piece_single (hdash : ∀ ds, cs' = '-' :: ds → ds.head? = some '-')
    (ht : asItem p = some t) : Piece cs t cs' where
  plain := htakes.plain
  length_lt := hlt
  height := height_asItem ht
  closing rest := by
    rw [range_of_takes_single htakes hdash (by decide), ht]
    rfl
  openDash hop h := .single hop htakes.eq_some hdash h
  escaping hop h tail := by
    rw [range_of_takes_single htakes hdash (by decide), ht]
    rfl

/-- A character alone but for a dash: the dash is open. -/
theorem piece_openDash (hdash : cs' = ['-']) (ht : asItem p = some t) : Piece cs t cs' where
  plain := htakes.plain
  length_lt := hlt
  height := height_asItem ht
  closing rest := by
    have hitem := htakes.eq (']' :: rest)
    rw [hdash] at hitem ⊢
    rw [range_of_single hitem (.inr (.inl rfl)), ht]
    rfl
  openDash hop _ := .last hop (hdash ▸ htakes.eq_some)
  escaping hop h := absurd (.last hop (hdash ▸ htakes.eq_some)) h

end

theorem piece_range {q : Primitive} {lo hi : Literal} {cs₂ : List Char}
    (htakes : Takes (item false) cs p ('-' :: ds)) (hend : ds.head? ≠ some ']')
    (hdash : ds.head? ≠ some '-') (hne : ds ≠ []) (htakes₂ : Takes (item false) ds q cs₂)
    (hlt : cs₂.length < cs.length) (hlo : asEnd p = some lo) (hhi : asEnd q = some hi)
    (hle : lo.char ≤ hi.char) : Piece cs (.range lo hi) cs₂ := by
  have hrange : ∀ tail, range false (cs ++ tail) = some (.range lo hi, cs₂ ++ tail) := by
    intro tail
    have hitem : item false (cs ++ tail) = some (p, '-' :: (ds ++ tail)) := htakes.eq tail
    have hhead : (ds ++ tail).head? = ds.head? := List.head?_append_of_ne_nil ds hne
    rw [range_of_range hitem (hhead ▸ hend) (hhead ▸ hdash), htakes₂.eq, Option.bind_some, hlo,
      Option.bind_some, hhi, Option.bind_some, if_pos hle]
  exact ⟨htakes₂.plain, hlt, rfl, fun rest => hrange _,
    fun hop h => .range hop htakes.eq_some hdash htakes₂.eq_some h, fun _ _ _ => hrange _⟩

theorem exists_item_of_range (h : range false cs = some (t, out)) :
    ∃ p out', item false cs = some (p, out') ∧ ∀ a, p ≠ .anchor a := by
  cases hitem : item false cs with
  | none =>
    rw [range, hitem] at h
    cases h
  | some r =>
    refine ⟨r.1, r.2, rfl, fun a ha => ?_⟩
    have hanchor : item false cs = some (.anchor a, r.2) := hitem.trans (congrArg some (ha ▸ rfl))
    rw [range_of_anchor hanchor] at h
    cases h

/-- A dash that does not stand for itself is that of a range. -/
theorem exists_piece_range (htakes : Takes (item false) cs p ('-' :: ds))
    (hlt : ds.length < cs.length) (hne : ds ≠ []) (hdash : ds.head? ≠ some '-')
    (h : range false (cs ++ ']' :: rest) = some (t, out)) : ∃ cs', Piece cs t cs' := by
  have hplain : Plain ds := htakes.plain.tail (by decide)
  have hend : ds.head? ≠ some ']' := by
    cases ds with
    | nil => exact fun he => absurd he (Option.some_ne_none _).symm
    | cons e ds =>
      have hnot : e ∉ ['[', ']'] := hplain.not_mem (by decide)
      exact fun he => ne_of_mem_of_not_mem (by decide) hnot (Option.some.inj he).symm
  have hitem : item false (cs ++ ']' :: rest) = some (p, '-' :: (ds ++ ']' :: rest)) :=
    htakes.eq _
  have hhead : (ds ++ ']' :: rest).head? = ds.head? := List.head?_append_of_ne_nil ds hne
  rw [range_of_range hitem (hhead ▸ hend) (hhead ▸ hdash)] at h
  obtain ⟨⟨q, out'⟩, hlast, h⟩ := Option.bind_eq_some_iff.1 h
  obtain ⟨lo, hlo, h⟩ := Option.bind_eq_some_iff.1 h
  obtain ⟨hi, hhi, h⟩ := Option.bind_eq_some_iff.1 h
  have hq : ∀ a, q ≠ .anchor a := by
    rintro a rfl
    cases hhi
  obtain ⟨cs', htakes', hlt'⟩ := exists_takes_item hplain hne hq hlast
  split at h
  · rename_i hle
    obtain ⟨rfl, -⟩ := Prod.mk.inj (Option.some.inj h)
    exact ⟨cs', piece_range htakes hend hdash hne htakes' (Nat.lt_trans hlt' hlt) hlo hhi hle⟩
  · cases h

/-- **What is read** at the beginning of a class is a piece. -/
theorem exists_piece (hcs : Plain cs) (hne : cs ≠ [])
    (h : range false (cs ++ ']' :: rest) = some (t, out)) : ∃ cs', Piece cs t cs' := by
  obtain ⟨p, out', hitem, hp⟩ := exists_item_of_range h
  obtain ⟨cs₁, htakes, hlt⟩ := exists_takes_item hcs hne hp hitem
  by_cases hdash : ∀ ds, cs₁ = '-' :: ds → ds.head? = some '-'
  · rw [range_of_takes_single htakes hdash (by decide)] at h
    obtain ⟨t', ht, hpair⟩ := Option.map_eq_some_iff.1 h
    obtain ⟨rfl, -⟩ := Prod.mk.inj hpair
    exact ⟨cs₁, piece_single htakes hlt hdash ht⟩
  · simp only [not_forall] at hdash
    obtain ⟨ds, rfl, hds⟩ := hdash
    by_cases hnil : ds = []
    · subst hnil
      rw [range_of_single (htakes.eq _) (.inr (.inl rfl))] at h
      obtain ⟨t', ht, hpair⟩ := Option.map_eq_some_iff.1 h
      obtain ⟨rfl, -⟩ := Prod.mk.inj hpair
      exact ⟨['-'], piece_openDash htakes hlt rfl ht⟩
    · exact exists_piece_range htakes (Nat.lt_of_succ_lt hlt) hnil hds h

end

/-! ### Steps -/

/-- From one state and text the reader gets to another, whatever the bound on the steps. -/
def Leads (st : State) (cs : List Char) (st' : State) (rest : List Char) : Prop :=
  ∃ k, k + rest.length ≤ cs.length ∧
    ∀ n, readWithin false (k + n) st cs = readWithin false n st' rest

section
variable {st st₁ st' : State} {c : Char} {cs mid rest : List Char}

theorem Leads.refl : Leads st cs st cs :=
  ⟨0, Nat.le_of_eq (Nat.zero_add _), fun n => by rw [Nat.zero_add]⟩

theorem Leads.trans (h : Leads st cs st₁ mid) (h' : Leads st₁ mid st' rest) :
    Leads st cs st' rest := by
  obtain ⟨k, hk, heq⟩ := h
  obtain ⟨k', hk', heq'⟩ := h'
  exact ⟨k + k', by omega, fun n => by rw [Nat.add_assoc, heq, heq']⟩

theorem Leads.step (hlen : rest.length < cs.length)
    (h : ∀ n, readWithin false (n + 1) st cs = readWithin false n st' rest) :
    Leads st cs st' rest := ⟨1, by omega, fun n => by rw [Nat.add_comm, h]⟩

/-- The next item. -/
def State.push (st : State) (t : ClassTree) : State := ⟨t :: st.items, st.waiting⟩

theorem readWithin_operator {op : ClassOperator} {n : Nat} (h : operator? cs = some (op, rest)) :
    readWithin false (n + 1) st cs = readWithin false n (st.operator op) rest := by
  unfold operator? at h
  split at h
  · cases h; rfl
  · cases h; rfl
  · cases h; rfl
  · cases h

theorem readWithin_piece {n : Nat} (hop : operator? (c :: cs) = none) (hc : c ∉ ['[', ']']) :
    readWithin false (n + 1) st (c :: cs) = (range false (c :: cs)).bind fun r =>
      readWithin false n (st.push r.1) r.2 := by
  rw [readWithin, ahead_false]
  split
  · exact absurd ‹c :: cs = []› (List.cons_ne_nil _ _)
  · exact absurd (List.cons.inj ‹_›).1 (ne_of_mem_of_not_mem (by decide) hc).symm
  · exact absurd (List.cons.inj ‹_›).1 (ne_of_mem_of_not_mem (by decide) hc).symm
  · rw [‹c :: cs = _›] at hop
    cases hop
  · rw [‹c :: cs = _›] at hop
    cases hop
  · rw [‹c :: cs = _›] at hop
    cases hop
  · rfl

theorem length_operator? {op : ClassOperator} (h : operator? cs = some (op, rest)) :
    rest.length < cs.length := by
  unfold operator? at h
  split at h <;> cases h <;> exact Nat.lt_succ_of_lt (Nat.lt_succ_self _)

theorem plain_of_operator? {op : ClassOperator} (hcs : Plain cs)
    (h : operator? cs = some (op, rest)) : Plain rest := by
  unfold operator? at h
  split at h <;> cases h <;> exact (hcs.tail (by decide)).tail (by decide)

/-- What comes after a text does not make an operator of its last character. -/
theorem operator?_append (hne : cs ≠ []) (hc : c ∉ ['&', '-', '~']) (tail : List Char) :
    operator? (cs ++ c :: tail) = (operator? cs).map fun r => (r.1, r.2 ++ c :: tail) := by
  have hand : c ≠ '&' := (ne_of_mem_of_not_mem (by decide) hc).symm
  have hdash : c ≠ '-' := (ne_of_mem_of_not_mem (by decide) hc).symm
  have htilde : c ≠ '~' := (ne_of_mem_of_not_mem (by decide) hc).symm
  match cs, hne with
  | [a], _ =>
    unfold operator?
    split <;> simp_all
  | a :: b :: cs, _ =>
    unfold operator?
    split <;> split <;> simp_all

/-! ### Whole classes -/

/-- The reader is in a class without brackets inside. -/
inductive Inside (negated : Bool) : State → Prop
  | items {ts : List ClassTree} (hts : ∀ t ∈ ts, t.height = 0) :
    Inside negated ⟨ts, [.bracket [] negated]⟩
  | operation {ts : List ClassTree} (op : ClassOperator) (left : ClassTree) :
    Inside negated ⟨ts, [.operator op left, .bracket [] negated]⟩

theorem Inside.operator {negated : Bool} (h : Inside negated st) (op : ClassOperator) :
    Inside negated (st.operator op) := by
  cases h with
  | items hts => exact .operation _ _
  | operation => exact .operation _ _

theorem Inside.push {negated : Bool} {t : ClassTree} (h : Inside negated st) (ht : t.height = 0) :
    Inside negated (st.push t) := by
  cases h with
  | items hts => exact .items (List.forall_mem_cons.2 ⟨ht, hts⟩)
  | operation => exact .operation _ _

/-- The reader gets through `cs`: to its end before every closing bracket, and before every
backslash unless `cs` ends in an open dash. -/
structure Through (st : State) (cs : List Char) (st' : State) : Prop where
  closing (rest : List Char) : Leads st (cs ++ ']' :: rest) st' (']' :: rest)
  escaping (h : ¬OpenDash cs) (tail : List Char) : Leads st (cs ++ '\\' :: tail) st' ('\\' :: tail)
  inside {negated : Bool} (h : Inside negated st) : Inside negated st'

theorem Through.nil : Through st [] st := ⟨fun _ => .refl, fun _ _ => .refl, id⟩

theorem Through.operator {op : ClassOperator} (hop : operator? cs = some (op, mid)) (hne : cs ≠ [])
    (h : Through (st.operator op) mid st') : Through st cs st' := by
  have happend : ∀ {c}, c ∉ ['&', '-', '~'] → ∀ tail,
      operator? (cs ++ c :: tail) = some (op, mid ++ c :: tail) := fun hc tail => by
    rw [operator?_append hne hc, hop]
    rfl
  have hstep : ∀ {c}, c ∉ ['&', '-', '~'] → ∀ tail,
      Leads st (cs ++ c :: tail) (st.operator op) (mid ++ c :: tail) := fun hc tail =>
    .step (by
      have := length_operator? (happend hc tail)
      omega) fun n => readWithin_operator (happend hc tail)
  exact ⟨fun rest => (hstep (by decide) rest).trans (h.closing rest),
    fun hopen tail => (hstep (by decide) tail).trans
      (h.escaping (fun h' => hopen (.operator hop h')) tail),
    fun hin => h.inside (hin.operator op)⟩

theorem Through.piece {t : ClassTree} (hcs : Plain cs) (hop : operator? cs = none)
    (hpiece : Piece cs t mid) (h : Through (st.push t) mid st') : Through st cs st' := by
  have hlt := hpiece.length_lt
  obtain ⟨d, ds, rfl⟩ : ∃ d ds, cs = d :: ds := by
    cases cs with
    | nil => exact absurd hlt (Nat.not_lt_zero _)
    | cons d ds => exact ⟨d, ds, rfl⟩
  have hstep : ∀ {c}, c ∉ ['&', '-', '~'] → ∀ tail,
      range false (d :: ds ++ c :: tail) = some (t, mid ++ c :: tail) →
        Leads st (d :: ds ++ c :: tail) (st.push t) (mid ++ c :: tail) := by
    intro c hc tail hrange
    have hop' : operator? (d :: (ds ++ c :: tail)) = none := by
      rw [← List.cons_append, operator?_append (List.cons_ne_nil _ _) hc, hop]
      rfl
    refine .step ?_ fun n => ?_
    · rw [List.length_append, List.length_append]
      omega
    · rw [List.cons_append, readWithin_piece hop' (hcs.not_mem (by decide)), ← List.cons_append,
        hrange]
      rfl
  exact ⟨fun rest => (hstep (by decide) rest (hpiece.closing rest)).trans (h.closing rest),
    fun hopen tail => (hstep (by decide) tail (hpiece.escaping hop hopen tail)).trans
      (h.escaping (fun h' => hopen (hpiece.openDash hop h')) tail),
    fun hin => h.inside (hin.push hpiece.height)⟩

/-- **A class that is read** before some closing bracket is read to this bracket, whatever comes
after it. -/
theorem exists_through {n : Nat} {r : Tree × List Char} (hcs : Plain cs)
    (h : readWithin false n st (cs ++ ']' :: rest) = some r) : ∃ st', Through st cs st' := by
  induction n generalizing st cs with
  | zero => cases h
  | succ n ih =>
    cases hne : cs with
    | nil => exact ⟨st, .nil⟩
    | cons d ds =>
      rw [← hne]
      have hcons : cs ≠ [] := hne ▸ List.cons_ne_nil d ds
      have happend := operator?_append (c := ']') hcons (by decide) rest
      cases hop : operator? cs with
      | some r =>
        obtain ⟨op, mid⟩ := r
        rw [hop] at happend
        rw [readWithin_operator happend] at h
        obtain ⟨st', hst'⟩ := ih (plain_of_operator? hcs hop) h
        exact ⟨st', .operator hop hcons hst'⟩
      | none =>
        rw [hop, hne, List.cons_append] at happend
        rw [hne, List.cons_append, readWithin_piece happend ((hne ▸ hcs).not_mem (by decide))] at h
        obtain ⟨⟨t, out⟩, hrange, h⟩ := Option.bind_eq_some_iff.1 h
        rw [← List.cons_append, ← hne] at hrange
        obtain ⟨mid, hpiece⟩ := exists_piece hcs hcons hrange
        obtain ⟨-, rfl⟩ := Prod.mk.inj (Option.some.inj (hrange.symm.trans (hpiece.closing rest)))
        obtain ⟨st', hst'⟩ := ih hpiece.plain h
        exact ⟨st', .piece hcs hop hpiece hst'⟩

end

end Bracket
end Regex
end RouteSolver
