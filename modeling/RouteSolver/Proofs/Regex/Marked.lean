/-
# Marked expressions read what they match

The marks of an expression stand for the bytes that can have taken the byte read last.
`Marked.Resumes` says what can still be read from a mark to the end of the expression. One more byte
moves the marks so that exactly the same remains possible (`Marked.resumes_shift_iff`); so after a
text is read the marks tell what may follow it (`Reading.resumes_foldl_iff`), and the automaton of
an expression accepts its language (`Automaton.acceptsBytes_ofExpr`).

Bytes that no set of bytes and no assertion tells apart move the marks alike
(`Marked.shift_congr`), and on one expression the marks can be read back from their digits
(`Marked.digits_injective`). So the keys of readings are a congruence.
-/

import RouteSolver.Regex.Marked
import RouteSolver.Proofs.Automaton.Minimal
import RouteSolver.Proofs.Diagram.Number
import RouteSolver.Proofs.Regex.Language

namespace RouteSolver
namespace Regex

namespace Expr

@[simp]
theorem lastOr_nil (before : Option UInt8) : lastOr before [] = before := rfl

@[simp]
theorem headOr_cons (after : Option UInt8) (b : UInt8) (w : List UInt8) :
    headOr after (b :: w) = some b := rfl

@[simp]
theorem lastOr_cons (before : Option UInt8) (b : UInt8) (w : List UInt8) :
    lastOr before (b :: w) = lastOr (some b) w := by
  rw [lastOr, lastOr, List.getLast?_cons]
  cases w.getLast? <;> rfl

theorem lastOr_concat (before : Option UInt8) (w : List UInt8) (b : UInt8) :
    lastOr before (w ++ [b]) = some b := by rw [lastOr, List.getLast?_concat]; rfl

/-- A text that is not empty is cut in two before its first byte or behind it. -/
theorem exists_cut_cons_iff {p : List UInt8 → List UInt8 → Prop} {b : UInt8} {w : List UInt8} :
    (∃ u v, b :: w = u ++ v ∧ p u v) ↔ p [] (b :: w) ∨ ∃ u v, w = u ++ v ∧ p (b :: u) v := by
  constructor
  · rintro ⟨u, v, huv, hp⟩
    rcases List.cons_eq_append_iff.1 huv with ⟨rfl, rfl⟩ | ⟨u, rfl, hw⟩
    · exact .inl hp
    · exact .inr ⟨u, v, hw, hp⟩
  · rintro (hp | ⟨u, v, rfl, hp⟩)
    · exact ⟨[], b :: w, rfl, hp⟩
    · exact ⟨b :: u, v, rfl, hp⟩

/-- Pieces of a text that is not empty begin with a piece that is not empty. -/
theorem pieces_cons_iff {piece : Option UInt8 → List UInt8 → Option UInt8 → Prop}
    {before after : Option UInt8} {b : UInt8} {w : List UInt8} :
    Pieces piece before (b :: w) after ↔ ∃ u v, w = u ++ v ∧
      piece before (b :: u) (headOr after v) ∧ Pieces piece (lastOr (some b) u) v after := by
  constructor
  · generalize hx : b :: w = x
    intro h
    induction h with
    | nil => exact nomatch hx
    | cons before after u v first rest ih =>
      cases u with
      | nil => exact ih hx
      | cons c u =>
        obtain ⟨rfl, rfl⟩ := List.cons.inj hx
        rw [lastOr_cons] at rest
        exact ⟨u, v, rfl, first, rest⟩
  · rintro ⟨u, v, rfl, hfirst, hrest⟩
    rw [← List.cons_append]
    exact .cons _ _ _ _ hfirst ((lastOr_cons before b u).symm ▸ hrest)

end Expr

open Regex.Expr

namespace Marked

/-- The expression that is marked. -/
def erase : Marked → Expr
  | byte _ s => .byte s
  | look l => .look l
  | empty => .empty
  | cat a b => .cat a.erase b.erase
  | alt a b => .alt a.erase b.erase
  | star a => .star a.erase

/-- From a mark, which has taken the byte `before`, reading `w` leads to the end. -/
def Resumes : Marked → Option UInt8 → List UInt8 → Option UInt8 → Prop
  | byte mark _, _, w, _ => mark = true ∧ w = []
  | look _, _, _, _ => False
  | empty, _, _, _ => False
  | cat a b, before, w, after =>
    (∃ u v, w = u ++ v ∧ a.Resumes before u (headOr after v) ∧
      b.erase.Matches (lastOr before u) v after) ∨ b.Resumes before w after
  | alt a b, before, w, after => a.Resumes before w after ∨ b.Resumes before w after
  | star a, before, w, after =>
    ∃ u v, w = u ++ v ∧ a.Resumes before u (headOr after v) ∧
      (Expr.star a.erase).Matches (lastOr before u) v after

@[simp]
theorem erase_ofExpr (e : Expr) : (ofExpr e).erase = e := by
  induction e with
  | byte | look | empty => rfl
  | cat a b iha ihb => rw [ofExpr, erase, iha, ihb]
  | alt a b iha ihb => rw [ofExpr, erase, iha, ihb]
  | star a ih => rw [ofExpr, erase, ih]

@[simp]
theorem erase_shift (before : Option UInt8) (b : UInt8) (enter : Bool) (m : Marked) :
    (m.shift before b enter).erase = m.erase := by
  induction m generalizing enter with
  | byte | look | empty => rfl
  | cat x y ihx ihy => rw [shift, erase, ihx, ihy, erase]
  | alt x y ihx ihy => rw [shift, erase, ihx, ihy, erase]
  | star x ih => rw [shift, erase, ih, erase]

/-- Without a mark there is nothing to resume. -/
theorem not_resumes_ofExpr (e : Expr) (before : Option UInt8) (w : List UInt8)
    (after : Option UInt8) : ¬(ofExpr e).Resumes before w after := by
  induction e generalizing before w after with
  | byte s => exact fun h => Bool.noConfusion h.1
  | look l => exact id
  | empty => exact id
  | cat a b iha ihb =>
    rintro (⟨u, v, -, h, -⟩ | h)
    · exact iha _ _ _ h
    · exact ihb _ _ _ h
  | alt a b iha ihb => exact fun h => h.elim (iha _ _ _) (ihb _ _ _)
  | star a ih =>
    rintro ⟨u, v, -, h, -⟩
    exact ih _ _ _ h

/-- **Matching nothing.** -/
theorem nullable_iff (m : Marked) (before after : Option UInt8) :
    m.nullable before after = true ↔ m.erase.Matches before [] after := by
  induction m with
  | byte mark s => exact ⟨fun h => Bool.noConfusion h, fun ⟨b, _, h⟩ => nomatch h⟩
  | look l => exact (and_iff_right rfl).symm
  | empty => exact ⟨fun _ => rfl, fun _ => rfl⟩
  | cat a b iha ihb =>
    rw [nullable, Bool.and_eq_true, iha, ihb]
    constructor
    · exact fun ⟨ha, hb⟩ => ⟨[], [], rfl, ha, hb⟩
    · rintro ⟨u, v, huv, ha, hb⟩
      obtain ⟨rfl, rfl⟩ := List.append_eq_nil_iff.1 huv.symm
      exact ⟨ha, hb⟩
  | alt a b iha ihb => rw [nullable, Bool.or_eq_true, iha, ihb]; rfl
  | star a => exact ⟨fun _ => .nil _ _, fun _ => rfl⟩

/-- **Reaching the end** is resuming with nothing. -/
theorem reaches_iff (m : Marked) (before after : Option UInt8) :
    m.reaches before after = true ↔ m.Resumes before [] after := by
  induction m with
  | byte mark s => exact (and_iff_left rfl).symm
  | look l => exact ⟨fun h => Bool.noConfusion h, False.elim⟩
  | empty => exact ⟨fun h => Bool.noConfusion h, False.elim⟩
  | cat a b iha ihb =>
    rw [reaches, Bool.or_eq_true, Bool.and_eq_true, iha, ihb, nullable_iff]
    refine or_congr_left ⟨fun ⟨ha, hb⟩ => ⟨[], [], rfl, ha, hb⟩, ?_⟩
    rintro ⟨u, v, huv, ha, hb⟩
    obtain ⟨rfl, rfl⟩ := List.append_eq_nil_iff.1 huv.symm
    exact ⟨ha, hb⟩
  | alt a b iha ihb => rw [reaches, Bool.or_eq_true, iha, ihb]; rfl
  | star a ih =>
    rw [reaches, ih]
    refine ⟨fun h => ⟨[], [], rfl, h, .nil _ _⟩, ?_⟩
    rintro ⟨u, v, huv, ha, -⟩
    obtain ⟨rfl, rfl⟩ := List.append_eq_nil_iff.1 huv.symm
    exact ha

/-- **One more byte** is taken either after a mark or by entering the expression. -/
theorem resumes_shift_iff (m : Marked) (before : Option UInt8) (b : UInt8) (enter : Bool)
    (w : List UInt8) (after : Option UInt8) :
    (m.shift before b enter).Resumes (some b) w after ↔
      m.Resumes before (b :: w) after ∨ enter = true ∧ m.erase.Matches before (b :: w) after := by
  induction m generalizing enter w after with
  | byte mark s =>
    rw [shift, Resumes, Resumes, erase, Matches, Bool.and_eq_true]
    constructor
    · rintro ⟨⟨henter, hb⟩, rfl⟩
      exact .inr ⟨henter, b, hb, rfl⟩
    · rintro (⟨-, h⟩ | ⟨henter, c, hc, h⟩)
      · exact nomatch h
      · obtain ⟨rfl, rfl⟩ := List.cons.inj h
        exact ⟨⟨henter, hc⟩, rfl⟩
  | look l => exact ⟨False.elim, fun h => h.elim id fun h => nomatch h.2.1⟩
  | empty => exact ⟨False.elim, fun h => h.elim id fun h => nomatch h.2⟩
  | alt x y ihx ihy =>
    rw [shift, Resumes, Resumes, erase, Matches, ihx, ihy, and_or_left]
    exact or_or_or_comm
  | cat x y ihx ihy =>
    rw [shift, Resumes, Resumes, erase, Matches, exists_cut_cons_iff, exists_cut_cons_iff]
    simp only [ihx, ihy, erase_shift, Bool.or_eq_true, Bool.and_eq_true, nullable_iff, reaches_iff,
      lastOr_nil, lastOr_cons, headOr_cons]
    constructor
    · rintro (⟨u, v, rfl, hx | ⟨henter, hx⟩, hy⟩ | hy | ⟨⟨henter, hx⟩ | hx, hy⟩)
      · exact .inl (.inl (.inr ⟨u, v, rfl, hx, hy⟩))
      · exact .inr ⟨henter, .inr ⟨u, v, rfl, hx, hy⟩⟩
      · exact .inl (.inr hy)
      · exact .inr ⟨henter, .inl ⟨hx, hy⟩⟩
      · exact .inl (.inl (.inl ⟨hx, hy⟩))
    · rintro (((⟨hx, hy⟩ | ⟨u, v, rfl, hx, hy⟩) | hy) | ⟨henter, ⟨hx, hy⟩ | ⟨u, v, rfl, hx, hy⟩⟩)
      · exact .inr (.inr ⟨.inr hx, hy⟩)
      · exact .inl ⟨u, v, rfl, .inl hx, hy⟩
      · exact .inr (.inl hy)
      · exact .inr (.inr ⟨.inl ⟨henter, hx⟩, hy⟩)
      · exact .inl ⟨u, v, rfl, .inr ⟨henter, hx⟩, hy⟩
  | star x ih =>
    rw [shift, Resumes, Resumes, erase, Matches, exists_cut_cons_iff]
    simp only [ih, erase_shift, Bool.or_eq_true, reaches_iff, Matches, pieces_cons_iff, lastOr_nil,
      lastOr_cons, headOr_cons]
    constructor
    · rintro ⟨u, v, rfl, hx | ⟨henter | hreach, hx⟩, hrest⟩
      · exact .inl (.inr ⟨u, v, rfl, hx, hrest⟩)
      · exact .inr ⟨henter, u, v, rfl, hx, hrest⟩
      · exact .inl (.inl ⟨hreach, u, v, rfl, hx, hrest⟩)
    · rintro ((⟨hreach, u, v, rfl, hx, hrest⟩ | ⟨u, v, rfl, hx, hrest⟩) |
        ⟨henter, u, v, rfl, hx, hrest⟩)
      · exact ⟨u, v, rfl, .inr ⟨.inr hreach, hx⟩, hrest⟩
      · exact ⟨u, v, rfl, .inl hx, hrest⟩
      · exact ⟨u, v, rfl, .inr ⟨.inl henter, hx⟩, hrest⟩

end Marked

/-! ### Readings -/

namespace Reading

/-- **After a text is read**, the marks tell what may follow it. -/
theorem resumes_foldl_iff (e : Expr) (w : List UInt8) :
    (w.foldl next (start e)).before = lastOr none w ∧
      (w.foldl next (start e)).marked.erase = e ∧
      ∀ v after, (w.foldl next (start e)).marked.Resumes (lastOr none w) v after ↔
        w ≠ [] ∧ e.Matches none (w ++ v) after := by
  induction w using List.reverseRecOn with
  | nil =>
    refine ⟨rfl, Marked.erase_ofExpr e, fun v after => ?_⟩
    exact ⟨fun h => absurd h (Marked.not_resumes_ofExpr e _ _ _), fun h => absurd rfl h.1⟩
  | append_singleton w b ih =>
    obtain ⟨hbefore, herase, hresumes⟩ := ih
    rw [List.foldl_append, List.foldl_cons, List.foldl_nil, next, hbefore, lastOr_concat]
    refine ⟨rfl, (Marked.erase_shift ..).trans herase, fun v after => ?_⟩
    rw [Marked.resumes_shift_iff, hresumes, herase, List.append_assoc, List.singleton_append]
    cases w using List.reverseRecOn with
    | nil =>
      rw [lastOr_nil, Option.isNone_none]
      simp
    | append_singleton w c =>
      rw [lastOr_concat, Option.isNone_some]
      simp

/-- **A reading accepts** when the text read matches as a whole. -/
theorem accepts_foldl_iff (e : Expr) (w : List UInt8) :
    (w.foldl next (start e)).accepts = true ↔ e.Language w := by
  obtain ⟨hbefore, herase, hresumes⟩ := resumes_foldl_iff e w
  rw [accepts, hbefore, Bool.or_eq_true, Bool.and_eq_true, Marked.nullable_iff,
    Marked.reaches_iff, hresumes, herase, List.append_nil, Expr.Language]
  cases w using List.reverseRecOn with
  | nil =>
    rw [lastOr_nil, Option.isNone_none]
    simp
  | append_singleton w b =>
    rw [lastOr_concat, Option.isNone_some]
    simp

end Reading

/-! ### What readings depend on -/

/-- No assertion tells the two apart. -/
structure Alike (p q : Option UInt8) : Prop where
  isNone : p.isNone = q.isNone
  feed : (p == some 10) = (q == some 10)
  carriage : (p == some 13) = (q == some 13)
  word : isWord p = isWord q

theorem Alike.refl (p : Option UInt8) : Alike p p := ⟨rfl, rfl, rfl, rfl⟩

theorem Look.holds_congr (l : Look) {p q p' q' : Option UInt8} (h : Alike p p') (k : Alike q q') :
    l.holds p q = l.holds p' q' := by
  cases l <;> simp only [holds, bne, h.isNone, h.feed, h.carriage, h.word, k.isNone, k.feed,
    k.carriage, k.word]

namespace Marked

variable {before before' after after' : Option UInt8}

theorem nullable_congr (m : Marked)
    (h : m.erase.hasLook = true → Alike before before' ∧ Alike after after') :
    m.nullable before after = m.nullable before' after' := by
  induction m with
  | byte | empty | star => rfl
  | look l => exact l.holds_congr (h rfl).1 (h rfl).2
  | cat a b iha ihb =>
    rw [erase, hasLook, Bool.or_eq_true] at h
    rw [nullable, nullable, iha fun ha => h (.inl ha), ihb fun hb => h (.inr hb)]
  | alt a b iha ihb =>
    rw [erase, hasLook, Bool.or_eq_true] at h
    rw [nullable, nullable, iha fun ha => h (.inl ha), ihb fun hb => h (.inr hb)]

theorem reaches_congr (m : Marked)
    (h : m.erase.hasLook = true → Alike before before' ∧ Alike after after') :
    m.reaches before after = m.reaches before' after' := by
  induction m with
  | byte | look | empty => rfl
  | cat a b iha ihb =>
    rw [erase, hasLook, Bool.or_eq_true] at h
    rw [reaches, reaches, iha fun ha => h (.inl ha), ihb fun hb => h (.inr hb),
      b.nullable_congr fun hb => h (.inr hb)]
  | alt a b iha ihb =>
    rw [erase, hasLook, Bool.or_eq_true] at h
    rw [reaches, reaches, iha fun ha => h (.inl ha), ihb fun hb => h (.inr hb)]
  | star a ih => exact ih h

/-- **Bytes that nothing tells apart** move the marks alike. -/
theorem shift_congr (m : Marked) {b c : UInt8} (enter : Bool)
    (hsets : ∀ s ∈ m.erase.byteSets, s.contains b = s.contains c)
    (h : m.erase.hasLook = true → Alike before before' ∧ Alike (some b) (some c)) :
    m.shift before b enter = m.shift before' c enter := by
  induction m generalizing enter with
  | byte mark s => rw [shift, shift, hsets s (List.mem_singleton.2 rfl)]
  | look | empty => rfl
  | cat x y ihx ihy =>
    rw [erase, hasLook, Bool.or_eq_true] at h
    rw [erase, byteSets] at hsets
    dsimp only [shift]
    rw [x.nullable_congr fun hx => h (.inl hx), x.reaches_congr fun hx => h (.inl hx),
      ihx _ (fun s hs => hsets s (List.mem_append_left _ hs)) fun hx => h (.inl hx),
      ihy _ (fun s hs => hsets s (List.mem_append_right _ hs)) fun hy => h (.inr hy)]
  | alt x y ihx ihy =>
    rw [erase, hasLook, Bool.or_eq_true] at h
    rw [erase, byteSets] at hsets
    rw [shift, shift,
      ihx _ (fun s hs => hsets s (List.mem_append_left _ hs)) fun hx => h (.inl hx),
      ihy _ (fun s hs => hsets s (List.mem_append_right _ hs)) fun hy => h (.inr hy)]
  | star x ih =>
    rw [shift, shift, x.reaches_congr h, ih _ hsets h]

/-- **The marks can be read back** from their digits. -/
theorem digits_injective {m m' : Marked} {acc acc' : Nat} (herase : m.erase = m'.erase)
    (h : m.digits acc = m'.digits acc') : m = m' ∧ acc = acc' := by
  induction m generalizing m' acc acc' with
  | byte mark s =>
    cases m' with
    | byte mark' s' =>
      obtain rfl := Expr.byte.inj herase
      rw [digits, digits] at h
      have hmark := Bool.toNat_le mark
      have hmark' := Bool.toNat_le mark'
      have heq : mark.toNat = mark'.toNat := by omega
      have hbit : mark = mark' := by cases mark <;> cases mark' <;> first | rfl | nomatch heq
      exact ⟨by rw [hbit], by omega⟩
    | _ => nomatch herase
  | look l =>
    cases m' with
    | look l' => exact ⟨congrArg look (Expr.look.inj herase), h⟩
    | _ => nomatch herase
  | empty =>
    cases m' with
    | empty => exact ⟨rfl, h⟩
    | _ => nomatch herase
  | cat a b iha ihb =>
    cases m' with
    | cat a' b' =>
      obtain ⟨ha, hb⟩ := Expr.cat.inj herase
      obtain ⟨rfl, hdigits⟩ := ihb hb h
      obtain ⟨rfl, hacc⟩ := iha ha hdigits
      exact ⟨rfl, hacc⟩
    | _ => nomatch herase
  | alt a b iha ihb =>
    cases m' with
    | alt a' b' =>
      obtain ⟨ha, hb⟩ := Expr.alt.inj herase
      obtain ⟨rfl, hdigits⟩ := ihb hb h
      obtain ⟨rfl, hacc⟩ := iha ha hdigits
      exact ⟨rfl, hacc⟩
    | _ => nomatch herase
  | star a ih =>
    cases m' with
    | star a' =>
      obtain ⟨rfl, hacc⟩ := ih (Expr.star.inj herase) h
      exact ⟨rfl, hacc⟩
    | _ => nomatch herase

theorem places_eq_of_erase_eq {m m' : Marked} (h : m.erase = m'.erase) : m.places = m'.places := by
  have key : ∀ m : Marked, m.places = (ofExpr m.erase).places := by
    intro m
    induction m with
    | byte | look | empty => rfl
    | cat a b iha ihb => rw [places, iha, ihb, erase, ofExpr, places]
    | alt a b iha ihb => rw [places, iha, ihb, erase, ofExpr, places]
    | star a ih => rw [places, ih, erase, ofExpr, places]
  rw [key m, key m', h]

theorem digits_lt (m : Marked) (acc : Nat) : m.digits acc < (acc + 1) * 2 ^ m.places := by
  induction m generalizing acc with
  | byte mark s =>
    have := Bool.toNat_le mark
    rw [digits, places]
    omega
  | look | empty => rw [digits, places]; omega
  | cat a b iha ihb =>
    rw [digits, places, Nat.pow_add, ← Nat.mul_assoc]
    exact Nat.lt_of_lt_of_le (ihb _) (Nat.mul_le_mul_right _ (iha acc))
  | alt a b iha ihb =>
    rw [digits, places, Nat.pow_add, ← Nat.mul_assoc]
    exact Nat.lt_of_lt_of_le (ihb _) (Nat.mul_le_mul_right _ (iha acc))
  | star a ih => exact ih acc

end Marked

/-! ### The letters of an expression -/

theorem some_beq_some (b c : UInt8) : (some b == some c) = (ByteSet.single c).contains b := by
  rw [ByteSet.contains_single, Bool.eq_iff_iff, beq_iff_eq, Option.some.injEq, decide_eq_true_iff]

/-- **Bytes of one letter** belong to the same sets, and no assertion tells them apart if there is
one. -/
theorem Expr.alike_of_letter_eq (e : Expr) {b c : UInt8}
    (h : e.alphabet.letter b = e.alphabet.letter c) :
    (∀ s ∈ e.byteSets, s.contains b = s.contains c) ∧
      (e.hasLook = true → Alike (some b) (some c)) := by
  rw [alphabet, Alphabet.letter_ofKey_eq_iff] at h
  generalize hall : (if e.hasLook = true then
    wordBytes :: .single 10 :: .single 13 :: e.byteSets.eraseDups else e.byteSets.eraseDups) =
      sets at h
  -- the keys are numbers whose digits say to which sets a byte belongs
  have hvalue : ∀ b : UInt8, sets.foldl (fun acc s => 2 * acc + (s.contains b).toNat) 0 =
      Diagram.Bits.value (sets.map (·.contains b)) := fun b => by
    rw [Diagram.Bits.value, List.foldl_map]
  rw [hvalue, hvalue] at h
  have hmap := Diagram.Bits.value_injective (by rw [List.length_map, List.length_map]) h
  have hmem : ∀ s ∈ sets, s.contains b = s.contains c := fun s hs =>
    List.map_inj_left.1 hmap s hs
  have hsub : ∀ s ∈ e.byteSets, s ∈ sets := by
    intro s hs
    rw [← List.mem_eraseDups] at hs
    rw [← hall]
    split
    · exact List.mem_cons_of_mem _ (List.mem_cons_of_mem _ (List.mem_cons_of_mem _ hs))
    · exact hs
  refine ⟨fun s hs => hmem s (hsub s hs), fun hlook => ?_⟩
  rw [if_pos hlook] at hall
  subst hall
  exact {
    isNone := rfl
    feed := by rw [some_beq_some, some_beq_some, hmem _ (by simp)]
    carriage := by rw [some_beq_some, some_beq_some, hmem _ (by simp)]
    word := hmem wordBytes (by simp) }

/-! ### Readings are explored -/

namespace Reading

variable {e : Expr} {r r' : Reading}

/-- What a key says about the byte read last. -/
def last (alphabet : Alphabet) (hasLook : Bool) (before : Option UInt8) : Nat :=
  match before with
  | none => 0
  | some b => if hasLook then alphabet.letter b + 1 else 1

theorem last_lt {alphabet : Alphabet} (h : alphabet.Valid) (hasLook : Bool)
    (before : Option UInt8) : last alphabet hasLook before < 257 := by
  cases before with
  | none => exact Nat.succ_pos _
  | some b =>
    have hlt := h.letter_lt b
    have hle := h.size_representatives_le
    rw [last]
    split <;> omega

/-- Readings of one key have the same marks, and no assertion tells the bytes before apart. -/
theorem alike_of_key_eq (hr : r.marked.erase = e) (hr' : r'.marked.erase = e)
    (hkey : r.key e.alphabet e.hasLook = r'.key e.alphabet e.hasLook) :
    r.marked = r'.marked ∧ r.before.isNone = r'.before.isNone ∧
      (e.hasLook = true → Alike r.before r'.before) := by
  have hvalid : e.alphabet.Valid := Alphabet.valid_ofKey _
  have hvalue : r.marked.digits 0 * 257 + last e.alphabet e.hasLook r.before =
      r'.marked.digits 0 * 257 + last e.alphabet e.hasLook r'.before :=
    congrArg ReadingKey.value hkey
  have hlt := last_lt hvalid e.hasLook r.before
  have hlt' := last_lt hvalid e.hasLook r'.before
  have hdigits : r.marked.digits 0 = r'.marked.digits 0 := by omega
  have hlast : last e.alphabet e.hasLook r.before = last e.alphabet e.hasLook r'.before := by omega
  refine ⟨(Marked.digits_injective (hr.trans hr'.symm) hdigits).1, ?_⟩
  have hpos : ∀ b, last e.alphabet e.hasLook (some b) ≠ 0 := fun b => by
    rw [last]
    split
    · exact Nat.succ_ne_zero _
    · exact Nat.one_ne_zero
  cases hb : r.before with
  | none =>
    cases hb' : r'.before with
    | none => exact ⟨rfl, fun _ => .refl none⟩
    | some c => rw [hb, hb'] at hlast; exact absurd hlast.symm (hpos c)
  | some b =>
    cases hb' : r'.before with
    | none => rw [hb, hb'] at hlast; exact absurd hlast (hpos b)
    | some c =>
      refine ⟨rfl, fun hlook => (e.alike_of_letter_eq ?_).2 hlook⟩
      rw [hb, hb', last, last, if_pos hlook, if_pos hlook] at hlast
      exact Nat.succ.inj hlast

/-- **The keys of readings** are a congruence. -/
theorem explorable (e : Expr) :
    Automaton.Explorable e.alphabet (Reading.key e.alphabet e.hasLook) next accepts
      (Nat.pow 2 (start e).marked.places * 257) (start e) (fun r => r.marked.erase = e) := by
  have hvalid : e.alphabet.Valid := Alphabet.valid_ofKey _
  refine {
    valid_alphabet := hvalid
    inv_start := Marked.erase_ofExpr e
    inv_next := fun r b hr => (Marked.erase_shift ..).trans hr
    key_next := fun r r' b hr hr' hkey => ?_
    key_letter := fun r b c hr hletter => ?_
    accept_eq := fun r r' hr hr' hkey => ?_
    bounded := ⟨ReadingKey.value, fun r hr => ?_, fun r r' _ _ h => congrArg ReadingKey.mk h⟩ }
  · obtain ⟨hmarked, hnone, halike⟩ := alike_of_key_eq hr hr' hkey
    have hshift := r'.marked.shift_congr (b := b) r'.before.isNone (fun s _ => rfl) fun h =>
      ⟨halike (hr' ▸ h), .refl _⟩
    rw [next, next, hmarked, hnone, hshift]
  · obtain ⟨hsets, halike⟩ := e.alike_of_letter_eq hletter
    have hshift := r.marked.shift_congr r.before.isNone (fun s hs => hsets s (hr ▸ hs)) fun h =>
      ⟨Alike.refl r.before, halike (hr ▸ h)⟩
    rw [next, next, hshift, key, key]
    dsimp only
    rw [hletter]
  · obtain ⟨hmarked, hnone, halike⟩ := alike_of_key_eq hr hr' hkey
    have hlook : r'.marked.erase.hasLook = true → Alike r.before r'.before ∧ Alike none none :=
      fun h => ⟨halike (hr' ▸ h), .refl none⟩
    rw [accepts, accepts, hmarked, hnone, r'.marked.nullable_congr hlook,
      r'.marked.reaches_congr hlook]
  · have hdigits := r.marked.digits_lt 0
    have hlast := last_lt hvalid e.hasLook r.before
    rw [Nat.zero_add, Nat.one_mul,
      Marked.places_eq_of_erase_eq (hr.trans (Marked.erase_ofExpr e).symm)] at hdigits
    change r.marked.digits 0 * 257 + last e.alphabet e.hasLook r.before <
      2 ^ (Marked.ofExpr e).places * 257
    omega

end Reading
end Regex

namespace Automaton

theorem valid_ofExpr (e : Regex.Expr) : (ofExpr e).Valid :=
  (Regex.Reading.explorable e).valid_explore.minimize

/-- **The automaton of an expression** accepts its language. -/
theorem acceptsBytes_ofExpr (e : Regex.Expr) (w : List UInt8) :
    (ofExpr e).acceptsBytes w = true ↔ e.Language w := by
  have hexp := Regex.Reading.explorable e
  rw [ofExpr, hexp.valid_explore.acceptsBytes_minimize, hexp.acceptsBytes_explore,
    Regex.Reading.accepts_foldl_iff]

end Automaton
end RouteSolver
