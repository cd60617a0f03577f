/-
# Reading router patterns

A router pattern that is spelled out is read as its pieces, from whatever state the reader is in
(`readsPieces_spell`): nothing in a pattern changes the modes, and what comes before and after it
stays apart from it. Only counts that do not fit in 32 bits are refused.
-/

import RouteSolver.Proofs.Domain.RouterPieces
import RouteSolver.Proofs.Regex.BracketReading
import Mathlib.Data.Fintype.Basic
import Mathlib.Tactic.FinCases

namespace RouteSolver

open Decimal Delimited Regex Utf8

namespace Regex

/-! ### Reading classes -/

section
variable {st : ReaderState} {bst : Bracket.State} {c : Char} {cs rest : List Char} {n : Nat}

theorem range_member (m : ClassMember) (hc : c ≠ '-') :
    Bracket.range false (m.chars ++ c :: cs) = some (m.item, c :: cs) := by
  have hback : ∀ d : Fin 10, digitOf d ≠ '\\' := by decide
  have hend : ∀ d : Fin 10, some (digitOf d) ≠ some ']' := by decide
  have hdash : ∀ d : Fin 10, some (digitOf d) ≠ some '-' := by decide
  have hmono : ∀ lo hi : Fin 10, lo ≤ hi → digitOf lo ≤ digitOf hi := by decide
  cases m with
  | digit d => exact Bracket.range_of_single (Bracket.item_char (hback d)) (.inl hc)
  | range lo hi h =>
    have hchars : (ClassMember.range lo hi h).chars ++ c :: cs =
        digitOf lo :: '-' :: digitOf hi :: c :: cs := rfl
    have hitem : Bracket.item false (digitOf lo :: '-' :: digitOf hi :: c :: cs) =
        some (.literal ⟨digitOf lo, false⟩, '-' :: digitOf hi :: c :: cs) :=
      Bracket.item_char (hback lo)
    rw [hchars, Bracket.range_of_range hitem (hend hi) (hdash hi), Bracket.item_char (hback hi)]
    exact if_pos (hmono lo hi h)

/-- Members begin with a digit. -/
theorem exists_chars_eq_cons (m : ClassMember) (cs : List Char) :
    ∃ (d : Fin 10) (ds : List Char), m.chars ++ cs = digitOf d :: ds := by
  cases m with
  | digit d => exact ⟨d, _, rfl⟩
  | range lo hi h => exact ⟨lo, _, rfl⟩

theorem exists_members_eq_cons (m : ClassMember) (ms : List ClassMember) (cs : List Char) :
    ∃ (d : Fin 10) (ds : List Char),
      (m :: ms).flatMap ClassMember.chars ++ cs = digitOf d :: ds := by
  rw [List.flatMap_cons, List.append_assoc]
  exact exists_chars_eq_cons m _

/-- **A member** becomes an item, as long as no dash follows. -/
theorem readWithin_member (m : ClassMember) (hc : c ≠ '-') :
    Bracket.readWithin false (n + 1) bst (m.chars ++ c :: cs) =
      Bracket.readWithin false n { bst with items := m.item :: bst.items } (c :: cs) := by
  obtain ⟨d, ds, hds⟩ := exists_chars_eq_cons m (c :: cs)
  have hop : Bracket.operator? (digitOf d :: ds) = none := by fin_cases d <;> rfl
  have hplain : ∀ d : Fin 10, digitOf d ∉ ['[', ']'] := by decide
  have hrange : Bracket.range false (m.chars ++ c :: cs) = some (m.item, c :: cs) :=
    range_member m hc
  rw [hds] at hrange ⊢
  rw [Bracket.readWithin_piece hop (hplain d), hrange]
  rfl

theorem readWithin_members (ms : List ClassMember) (hc : c ≠ '-') :
    Bracket.readWithin false (ms.length + n) bst (ms.flatMap ClassMember.chars ++ c :: cs) =
      Bracket.readWithin false n
        { bst with items := (ms.map ClassMember.item).reverse ++ bst.items } (c :: cs) := by
  have hdash : ∀ d : Fin 10, digitOf d ≠ '-' := by decide
  have hnext : ∀ ms : List ClassMember, ∃ d ds,
      ms.flatMap ClassMember.chars ++ c :: cs = d :: ds ∧ d ≠ '-'
    | [] => ⟨c, cs, rfl, hc⟩
    | m :: ms => by
      obtain ⟨d, ds, hds⟩ := exists_members_eq_cons m ms (c :: cs)
      exact ⟨_, ds, hds, hdash d⟩
  induction ms generalizing bst with
  | nil => rw [List.length_nil, Nat.zero_add]; rfl
  | cons m ms ih =>
    have hlen : (m :: ms).length + n = (ms.length + n) + 1 := Nat.succ_add _ _
    obtain ⟨d, ds, hds, hd⟩ := hnext ms
    rw [hlen, List.flatMap_cons, List.append_assoc, hds, readWithin_member m hd, ← hds, ih,
      List.map_cons, List.reverse_cons, List.append_assoc]
    rfl

theorem opening_digit (d : Fin 10) :
    Bracket.opening false (digitOf d :: cs) = (false, [], digitOf d :: cs) := by
  fin_cases d <;> rfl

theorem opening_negated_digit (d : Fin 10) :
    Bracket.opening false ('^' :: digitOf d :: cs) = (true, [], digitOf d :: cs) := by
  fin_cases d <;> rfl

theorem length_le_members (ms : List ClassMember) :
    ms.length ≤ (ms.flatMap ClassMember.chars).length := by
  induction ms with
  | nil => exact Nat.le_refl 0
  | cons m ms ih =>
    have hm : 1 ≤ m.chars.length := by cases m <;> exact Nat.succ_pos _
    rw [List.flatMap_cons, List.length_append, List.length_cons]
    omega

/-- Reading a class after its beginning. -/
theorem bracket_read_cons {negated : Bool} (ms : List ClassMember) (hc : c ≠ '-')
    (hopening : Bracket.opening false cs = (negated, [], ms.flatMap ClassMember.chars ++ c :: rest))
    (hlen : cs.length + 1 = ms.length + n) :
    Bracket.read false ('[' :: cs) = Bracket.readWithin false n
      ⟨(ms.map ClassMember.item).reverse, [.bracket [] negated]⟩ (c :: rest) := by
  have hstart : Bracket.readWithin false (cs.length + 1 + 1) ⟨[], []⟩ ('[' :: cs) =
      Bracket.readWithin false (cs.length + 1) ⟨[], [.bracket [] negated]⟩
        (ms.flatMap ClassMember.chars ++ c :: rest) := by
    rw [Bracket.readWithin]
    simp only [ahead, Bool.false_eq_true, if_false, hopening]
    rfl
  rw [Bracket.read, List.length_cons, hstart, hlen, readWithin_members ms hc, List.append_nil]

theorem read_plainClass (m : ClassMember) (ms : List ClassMember) :
    Bracket.read false (Symbol.expandedBracket false (m :: ms) ++ rest) =
      some (classPiece false (m :: ms), rest) := by
  have htext : Symbol.expandedBracket false (m :: ms) ++ rest =
      '[' :: ((m :: ms).flatMap ClassMember.chars ++ ']' :: rest) := by
    simp [Symbol.expandedBracket]
  obtain ⟨d, ds, hds⟩ := exists_members_eq_cons m ms (']' :: rest)
  have hopening : Bracket.opening false ((m :: ms).flatMap ClassMember.chars ++ ']' :: rest) =
      (false, [], (m :: ms).flatMap ClassMember.chars ++ ']' :: rest) := by
    rw [hds, opening_digit]
  obtain ⟨k, hk⟩ : ∃ k, ((m :: ms).flatMap ClassMember.chars ++ ']' :: rest).length + 1 =
      (m :: ms).length + (k + 1) := by
    have hlen := length_le_members (m :: ms)
    refine ⟨((m :: ms).flatMap ClassMember.chars).length - (m :: ms).length + rest.length + 1, ?_⟩
    rw [List.length_append, List.length_cons (a := ']')]
    omega
  have hclose : ∀ items, Bracket.readWithin false (k + 1) ⟨items, [.bracket [] false]⟩
      (']' :: rest) = some (.bracket false (.ofItems items.reverse), rest) := fun _ => rfl
  rw [htext, bracket_read_cons _ (by decide) hopening hk, hclose, List.reverse_reverse]
  simp [classPiece]

theorem read_negatedClass (ms : List ClassMember) :
    Bracket.read false (Symbol.expandedBracket true ms ++ rest) =
      some (classPiece true ms, rest) := by
  let marks : List Char := '\\' :: '^' :: '\\' :: '$' :: ']' :: rest
  have htext : Symbol.expandedBracket true ms ++ rest =
      '[' :: '^' :: (ms.flatMap ClassMember.chars ++ marks) := by
    simp [Symbol.expandedBracket, marks]
  have hopening : Bracket.opening false ('^' :: (ms.flatMap ClassMember.chars ++ marks)) =
      (true, [], ms.flatMap ClassMember.chars ++ marks) := by
    cases ms with
    | nil => rfl
    | cons m ms =>
      obtain ⟨d, ds, hds⟩ := exists_members_eq_cons m ms marks
      rw [hds, opening_negated_digit]
  obtain ⟨k, hk⟩ : ∃ k, ('^' :: (ms.flatMap ClassMember.chars ++ marks)).length + 1 =
      ms.length + (k + 3) := by
    have hlen := length_le_members ms
    refine ⟨(ms.flatMap ClassMember.chars).length - ms.length + rest.length + 4, ?_⟩
    simp only [List.length_append, List.length_cons, marks]
    omega
  have hclose : ∀ items, Bracket.readWithin false (k + 3) ⟨items, [.bracket [] true]⟩ marks =
      some (.bracket true (.ofItems (markItems.reverse ++ items).reverse), rest) := fun _ => rfl
  rw [htext, bracket_read_cons ms (by decide) hopening hk, hclose, List.reverse_append,
    List.reverse_reverse, List.reverse_reverse]
  rfl

end

/-! ### Reading patterns -/

section
variable {st : ReaderState} {c : Char} {cs rest : List Char} {form : TextForm}

theorem reads_class {negated : Bool} {ms : List ClassMember} (hst : st.verbose = false)
    (h : ∀ rest, Bracket.read false (Symbol.expandedBracket negated ms ++ rest) =
      some (classPiece negated ms, rest)) :
    Reads st (Symbol.expandedBracket negated ms ++ rest)
      (some (st.push (classPiece negated ms))) rest := by
  obtain ⟨tail, htail⟩ : ∃ tail, Symbol.expandedBracket negated ms = '[' :: tail := ⟨_, rfl⟩
  have hread := h rest
  rw [htail, List.cons_append] at hread ⊢
  refine .step hst ?_ ?_
  · rw [List.length_append]
    exact Nat.le_add_left _ _
  · rw [readStep, hst, hread]
    rfl

theorem reads_escaped (hst : st.verbose = false) (h : c = '^' ∨ c = '$') :
    Reads st ('\\' :: c :: rest) (some (st.push (piece c))) rest := by
  refine .step hst (Nat.le_succ _) ?_
  rcases h with rfl | rfl <;> rfl

theorem reads_ordinary (hst : st.verbose = false) (h : IsOrdinary c) :
    Reads st (c :: rest) (some (st.push (piece c))) rest := by
  refine .step hst (Nat.le_refl _) ?_
  unfold readStep
  split
  all_goals first | rfl | exact absurd (by decide) h

theorem reads_start (hst : st.verbose = false) (form : TextForm) :
    Reads st (form.startChars ++ rest) (some (st.pushAll form.startPieces)) rest := by
  cases form with
  | community => exact reads_escaped hst (.inl rfl)
  | asPath =>
    exact (reads_escaped hst (.inl rfl)).trans (Nat.le_add_right _ 2) (reads_escaped hst (.inl rfl))

theorem reads_delimiter (hst : st.verbose = false) (form : TextForm) :
    Reads st (form.delimiterChars ++ rest) (some (st.push form.delimiterPiece)) rest := by
  obtain ⟨pieces, branches, verbose, groups, names⟩ := st
  obtain rfl : verbose = false := hst
  cases form with
  | community =>
    refine ⟨7, ?_, fun n => by rw [Nat.add_comm]; rfl⟩
    simp only [TextForm.delimiterChars, List.cons_append, List.nil_append, List.length_cons]
    omega
  | asPath =>
    refine ⟨8, ?_, fun n => by rw [Nat.add_comm]; rfl⟩
    simp only [TextForm.delimiterChars, List.cons_append, List.nil_append, List.length_cons]
    omega

theorem readsAtom_symbol (form : TextForm) (x : Symbol) :
    ReadsAtom (x.expanded form.delimiterChars) true (x.piece form) := by
  intro st rest hst
  rw [if_pos rfl]
  cases x with
  | char c h =>
    have hc : c ≠ '?' := (ne_of_mem_of_not_mem (by decide) h).symm
    exact ⟨fun hhead => hc (Option.some.inj hhead), reads_ordinary hst h⟩
  | endMark => exact ⟨nofun, reads_escaped hst (.inr rfl)⟩
  | delimiter =>
    refine ⟨?_, reads_delimiter hst form⟩
    cases form <;> exact nofun
  | dot => exact ⟨nofun, reads_class hst fun _ => read_negatedClass []⟩
  | bracket negated m ms =>
    refine ⟨nofun, ?_⟩
    cases negated with
    | false => exact reads_class hst fun _ => read_plainClass m ms
    | true => exact reads_class hst fun _ => read_negatedClass (m :: ms)

theorem readsPieces_start (form : TextForm) :
    ReadsPieces form.startChars true form.startPieces := by
  intro st rest hst _
  refine ⟨?_, reads_start hst form⟩
  cases form <;> exact nofun

theorem reads_mark {min : Nat} {max : Option Nat} (hst : st.verbose = false) (hrest : NotLazy rest)
    (h : readStep st c rest = (st.repeatLatest min max).map (·, dropLazy rest)) :
    Reads st (c :: rest) (st.repeatLatest min max) rest :=
  .step hst (Nat.le_refl _) (by rw [h, hrest.dropLazy_eq])

theorem reads_times (t : Times) (st : ReaderState) (rest : List Char) (hst : st.verbose = false)
    (hrest : NotLazy rest) : Reads st (t.chars ++ rest)
      (if t.fits then st.repeatLatest t.min t.max else none) rest := by
  cases t with
  | any => exact reads_mark hst hrest rfl
  | atLeastOnce => exact reads_mark hst hrest rfl
  | atMostOnce => exact reads_mark hst hrest rfl
  | between m n =>
    have htext : (Times.between m n).chars ++ rest =
        '\x7b' :: (digits m ++ ',' :: (digits (m + n) ++ '}' :: rest)) := by
      simp [Times.chars]
    have hcounted := counted_digits (Nat.le_add_right m n) hrest
    rw [htext]
    refine .step hst ?_ ?_
    · simp only [List.length_append, List.length_cons]
      omega
    · rw [readStep, hst, hcounted]
      simp only [Times.fits, Times.min, Times.max, decide_eq_true_eq]
      by_cases h : m + n < 4294967296
      · rw [if_pos h, if_pos h]
        simp only [Option.bind_eq_bind, Option.bind_some]
        cases st.repeatLatest m (some (m + n)) <;> rfl
      · rw [if_neg h, if_neg h]
        rfl

end
end Regex

/-! ### Reading patterns -/

namespace RouterPattern

theorem exists_pieces_eq_singleton (form : TextForm) {p : RouterPattern} (h : p.isAtom = true) :
    ∃ t, p.pieces form = [t] ∧ ∀ m, t ≠ .modes m := by
  cases p with
  | symbol x =>
    refine ⟨_, rfl, ?_⟩
    cases x with
    | delimiter => cases form <;> exact fun _ h => nomatch h
    | char => exact fun _ h => nomatch h
    | endMark => exact fun _ h => nomatch h
    | dot => exact fun _ h => nomatch h
    | bracket => exact fun _ h => nomatch h
  | group p ps => exact ⟨_, rfl, fun _ h => nomatch h⟩
  | nothing => exact nomatch h
  | startMark => exact nomatch h
  | cat => exact nomatch h
  | repeated => exact nomatch h

variable (form : TextForm)

mutual
/-- **A pattern is read as its pieces**, if its counts are small enough. -/
theorem readsPieces_spell : ∀ p : RouterPattern,
    ReadsPieces (p.spell form.spelling) p.fits (p.pieces form)
  | .nothing => .nil
  | .startMark => readsPieces_start form
  | .symbol x => (readsAtom_symbol form x).pieces
  | .cat p q => (readsPieces_spell p).append (readsPieces_spell q)
  | .group p ps => ((readsPieces_spell p).group (readsBranches_spellMore ps)).pieces
  | .repeated p t => by
    rw [spell, pieces, fits]
    split
    · rename_i hatom
      obtain ⟨u, hu, hmodes⟩ := exists_pieces_eq_singleton form hatom
      have hbody : Tree.ofPieces (p.pieces form) = u := congrArg Tree.ofPieces hu
      exact (readsAtom_spell p hatom).repeated (hbody ▸ hmodes) (reads_times t)
    · have hbody := (readsPieces_spell p).group .nil
      rw [Bool.and_true, List.nil_append] at hbody
      exact hbody.repeated (fun _ h => nomatch h) (reads_times t)

theorem readsBranches_spellMore : ∀ ps : List RouterPattern,
    ReadsBranches (spellMore form.spelling ps) (fitsMore ps) (piecesMore form ps)
  | [] => .nil
  | p :: ps => .cons (readsPieces_spell p) (readsBranches_spellMore ps)

theorem readsAtom_spell : ∀ p : RouterPattern, p.isAtom = true →
    ReadsAtom (p.spell form.spelling) p.fits (Tree.ofPieces (p.pieces form))
  | .nothing, h => nomatch h
  | .startMark, h => nomatch h
  | .symbol x, _ => readsAtom_symbol form x
  | .cat _ _, h => nomatch h
  | .group p ps, _ => (readsPieces_spell p).group (readsBranches_spellMore ps)
  | .repeated _ _, h => nomatch h
end

end RouterPattern

end RouteSolver
