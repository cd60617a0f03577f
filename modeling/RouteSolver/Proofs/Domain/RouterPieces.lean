/-
# Router patterns as pieces

Spelled out for one of the two forms of texts, a router pattern is to be read as the pieces that its
syntax suggests (`RouterPattern.pieces`). Each group and each repetition nests them by a few levels
(`heights_pieces_le`), and in a row they mean what the pattern matches (`rowMeans_pieces`).
-/

import RouteSolver.Proofs.Domain.RouterPattern
import RouteSolver.Proofs.Regex.TreeMeaning
import Mathlib.Data.List.Forall2

namespace RouteSolver

open Decimal Delimited Regex Utf8

/-! ### Two forms of texts -/

/-- Communities and AS paths, which differ in the mark at their start. -/
inductive TextForm where
  | community
  | asPath

namespace TextForm

/-- The bytes of the start mark. -/
def start : TextForm → List UInt8
  | community => bytes communityStart
  | asPath => bytes asPathStart

/-- The start mark spelled out. -/
def startChars : TextForm → List Char
  | community => ['\\', '^']
  | asPath => ['\\', '^', '\\', '^']

/-- A delimiter spelled out. -/
def delimiterChars : TextForm → List Char
  | community => ['(', '?', ':', '\\', '^', '|', '\\', '$', '|', ' ', ')']
  | asPath => ['(', '?', ':', '\\', '^', '\\', '^', '|', ' ', '|', '\\', '$', ')']

/-- Patterns spelled out for texts of this form. -/
def spelling (form : TextForm) : Spelling := .expanded form.startChars form.delimiterChars

/-- The start mark as pieces. -/
def startPieces : TextForm → List Tree
  | community => [piece '^']
  | asPath => [piece '^', piece '^']

/-- A delimiter as a piece. -/
def delimiterPiece : TextForm → Tree
  | community => .group [] (.alternation [piece '^', piece '$', piece ' '])
  | asPath => .group [] (.alternation [.concat [piece '^', piece '^'], piece ' ', piece '$'])

end TextForm

/-! ### Pieces -/

/-- A member as an item of a class. -/
def ClassMember.item : ClassMember → ClassTree
  | digit d => .literal ⟨digitOf d, false⟩
  | range lo hi _ => .range ⟨digitOf lo, false⟩ ⟨digitOf hi, false⟩

/-- The marks as items of a class. -/
def markItems : List ClassTree := [.literal ⟨'^', false⟩, .literal ⟨'$', false⟩]

/-- A class as a piece. -/
def classPiece (negated : Bool) (ms : List ClassMember) : Tree :=
  .bracket negated (.ofItems (ms.map ClassMember.item ++ if negated then markItems else []))

/-- A symbol as a piece. -/
def Symbol.piece (form : TextForm) : Symbol → Tree
  | char c _ => Regex.piece c
  | endMark => Regex.piece '$'
  | delimiter => form.delimiterPiece
  | dot => classPiece true []
  | bracket negated first more => classPiece negated (first :: more)

/-- Whether the counts fit in 32 bits. -/
def Times.fits : Times → Bool
  | between min more => decide (min + more < 4294967296)
  | _ => true

namespace RouterPattern

mutual
/-- A pattern as pieces. -/
def pieces (form : TextForm) : RouterPattern → List Tree
  | nothing => []
  | startMark => form.startPieces
  | symbol s => [s.piece form]
  | cat p q => p.pieces form ++ q.pieces form
  | group p ps => [.group [] (.ofBranches ((p.pieces form :: piecesMore form ps).map .ofPieces))]
  | repeated p times =>
    let body := Tree.ofPieces (p.pieces form)
    [.repetition (if p.isAtom then body else .group [] body) times.min times.max]

/-- The pieces of each of some patterns. -/
def piecesMore (form : TextForm) : List RouterPattern → List (List Tree)
  | [] => []
  | p :: ps => p.pieces form :: piecesMore form ps
end

mutual
/-- Whether all counts of a pattern fit in 32 bits. -/
def fits : RouterPattern → Bool
  | nothing => true
  | startMark => true
  | symbol _ => true
  | cat p q => p.fits && q.fits
  | group p ps => p.fits && fitsMore ps
  | repeated p times => p.fits && times.fits

/-- Whether all counts of some patterns fit in 32 bits. -/
def fitsMore : List RouterPattern → Bool
  | [] => true
  | p :: ps => p.fits && fitsMore ps
end

end RouterPattern

/-! ### Nesting -/

namespace RouterPattern

mutual
/-- How deep groups and repetitions are nested. -/
def depth : RouterPattern → Nat
  | nothing => 0
  | startMark => 0
  | symbol _ => 0
  | cat p q => max p.depth q.depth
  | group p ps => max p.depth (depthMore ps) + 1
  | repeated p _ => p.depth + 1

/-- The greatest depth of some patterns. -/
def depthMore : List RouterPattern → Nat
  | [] => 0
  | p :: ps => max p.depth (depthMore ps)
end

end RouterPattern

theorem height_classPiece (negated : Bool) (ms : List ClassMember) :
    (classPiece negated ms).height ≤ 2 := by
  have hmarks : ∀ t ∈ markItems, t.height = 0 := by decide
  have hmembers : ∀ t ∈ ms.map ClassMember.item, t.height = 0 := by
    intro t ht
    obtain ⟨m, -, rfl⟩ := List.mem_map.1 ht
    cases m <;> rfl
  have hitems : ∀ t ∈ ms.map ClassMember.item ++ (if negated then markItems else []),
      t.height = 0 := by
    refine List.forall_mem_append.2 ⟨hmembers, ?_⟩
    cases negated with
    | false => exact fun t ht => absurd ht List.not_mem_nil
    | true => exact hmarks
  rw [classPiece, Regex.Tree.height]
  exact Nat.succ_le_succ (ClassTree.height_ofItems_le (ClassTree.heights_le_iff.2 fun t ht =>
    Nat.le_of_eq (hitems t ht)))

theorem height_symbolPiece (form : TextForm) (x : Symbol) : (x.piece form).height ≤ 3 := by
  cases x with
  | char => exact Nat.zero_le 3
  | endMark => exact Nat.zero_le 3
  | delimiter => cases form <;> decide
  | dot => exact Nat.le_succ_of_le (height_classPiece true [])
  | bracket negated m ms => exact Nat.le_succ_of_le (height_classPiece negated (m :: ms))

namespace RouterPattern

variable (form : TextForm)

mutual
/-- Each group and each repetition takes up to three levels. -/
theorem heights_pieces_le : ∀ (p : RouterPattern) {k : Nat}, p.depth ≤ k →
    Tree.heights (p.pieces form) ≤ 3 * (k + 1)
  | .nothing, _, _ => Nat.zero_le _
  | .startMark, _, _ => by cases form <;> exact Nat.zero_le _
  | .symbol x, k, _ => by
    refine Tree.heights_le_iff.2 (List.forall_mem_singleton.2 ?_)
    exact Nat.le_trans (height_symbolPiece form x) (Nat.le_mul_of_pos_right 3 k.succ_pos)
  | .cat p q, _, h => by
    obtain ⟨hp, hq⟩ := Nat.max_le.1 h
    exact Tree.heights_le_iff.2 (List.forall_mem_append.2
      ⟨Tree.heights_le_iff.1 (heights_pieces_le p hp),
        Tree.heights_le_iff.1 (heights_pieces_le q hq)⟩)
  | .group p ps, k + 1, h => by
    obtain ⟨hp, hps⟩ := Nat.max_le.1 (Nat.le_of_succ_le_succ h)
    have hbranches := Tree.height_branches_le
      (List.forall_mem_cons.2 ⟨heights_pieces_le p hp, heights_piecesMore_le ps hps⟩)
    refine Tree.heights_le_iff.2 (List.forall_mem_singleton.2 ?_)
    rw [Regex.Tree.height]
    omega
  | .repeated p t, k + 1, h => by
    have hbody := Tree.height_ofPieces_le (heights_pieces_le p (Nat.le_of_succ_le_succ h))
    refine Tree.heights_le_iff.2 (List.forall_mem_singleton.2 ?_)
    rw [Regex.Tree.height]
    split
    · omega
    · rw [Regex.Tree.height]
      omega

theorem heights_piecesMore_le : ∀ (ps : List RouterPattern) {k : Nat}, depthMore ps ≤ k →
    ∀ ts ∈ piecesMore form ps, Tree.heights ts ≤ 3 * (k + 1)
  | [], _, _ => fun _ hts => absurd hts List.not_mem_nil
  | p :: ps, _, h => by
    obtain ⟨hp, hps⟩ := Nat.max_le.1 h
    exact List.forall_mem_cons.2 ⟨heights_pieces_le p hp, heights_piecesMore_le ps hps⟩
end

end RouterPattern

/-! ### What the pieces mean -/

/-- The bytes of a member. -/
def ClassMember.bytes : ClassMember → ByteSet
  | digit d => .single (byteOf (digitOf d))
  | range lo hi _ => .range (byteOf (digitOf lo)) (byteOf (digitOf hi))

theorem ClassMember.contains_bytes (m : ClassMember) (b : UInt8) :
    m.bytes.contains b = true ↔ m.Contains b := by
  cases m with
  | digit d => rw [bytes, ByteSet.contains_single, decide_eq_true_iff]; rfl
  | range lo hi h =>
    rw [bytes, ByteSet.contains_range, Bool.and_eq_true, decide_eq_true_iff, decide_eq_true_iff]
    rfl

theorem byte?_of_ascii {c : Char} (h : c.toNat < 128) :
    (⟨c, false⟩ : Literal).byte? = some (byteOf c) := by
  rw [Literal.byte?, Bool.false_or, if_pos (decide_eq_true h)]
  rfl

theorem ClassMember.bytes?_item (m : Modes) (x : ClassMember) :
    x.item.bytes? m = some x.bytes := by
  have hascii : ∀ d : Fin 10, (digitOf d).toNat < 128 := by decide
  cases x with
  | digit d => rw [item, ClassTree.bytes?, byte?_of_ascii (hascii d)]; rfl
  | range lo hi h =>
    rw [item, ClassTree.bytes?, byte?_of_ascii (hascii lo), byte?_of_ascii (hascii hi)]
    rfl

theorem forall₂_items (ms : List ClassMember) :
    List.Forall₂ (fun t s => ClassTree.bytes? .start t = some s) (ms.map ClassMember.item)
      (ms.map ClassMember.bytes) := by
  rw [List.forall₂_map_left_iff, List.forall₂_map_right_iff, List.forall₂_same]
  exact fun m _ => m.bytes?_item .start

theorem means_plainClass (ms : List ClassMember) :
    (classPiece false ms).Means fun w => ∃ b, w = [b] ∧ ∃ m ∈ ms, m.Contains b := by
  have hitems := forall₂_items ms
  rw [← List.append_nil (ms.map ClassMember.item)] at hitems
  refine (Tree.means_bracket hitems).congr fun w => exists_congr fun b =>
    and_congr_right fun _ => ?_
  simp [ClassMember.contains_bytes]

theorem means_negatedClass (ms : List ClassMember) :
    (classPiece true ms).Means fun w =>
      ∃ b, w = [b] ∧ (∀ m ∈ ms, ¬m.Contains b) ∧ ¬IsMark b := by
  have hmarks : List.Forall₂ (fun t s => ClassTree.bytes? .start t = some s) markItems
      [.single (byteOf '^'), .single (byteOf '$')] := .cons rfl (.cons rfl .nil)
  refine (Tree.means_bracket (List.rel_append (forall₂_items ms) hmarks)).congr fun w =>
    exists_congr fun b => and_congr_right fun _ => ?_
  simp only [if_true, List.forall_mem_append, List.forall_mem_map, ← Bool.not_eq_true,
    ClassMember.contains_bytes, List.forall_mem_cons, ByteSet.contains_single, decide_eq_true_iff,
    List.not_mem_nil, false_imp_iff, implies_true, and_true, IsMark, not_or]

theorem rowMeans_startPieces (form : TextForm) :
    Tree.RowMeans form.startPieces (· = form.start) := by
  cases form with
  | community => exact Tree.rowMeans_literals communityStart.toList
  | asPath => exact Tree.rowMeans_literals asPathStart.toList

theorem means_delimiter (form : TextForm) : form.delimiterPiece.Means fun w =>
    w = form.start ∨ w = bytes endMark ∨ w = bytes " " := by
  have hstart := (rowMeans_startPieces form).ofPieces
  have hend := (Tree.rowMeans_literals endMark.toList).ofPieces
  have hspace := (Tree.rowMeans_literals " ".toList).ofPieces
  cases form with
  | community =>
    refine (Tree.means_group (Tree.ChoiceMeans.cons hstart
      (.cons hend (.cons hspace .nil))).ofBranches).congr fun w => ?_
    rw [or_false]
    rfl
  | asPath =>
    refine (Tree.means_group (Tree.ChoiceMeans.cons hstart
      (.cons hspace (.cons hend .nil))).ofBranches).congr fun w => or_congr_right ?_
    rw [or_false, or_comm]
    rfl

theorem means_symbol (form : TextForm) (x : Symbol) :
    (x.piece form).Means (x.Matches form.start) := by
  cases x with
  | char c h => exact Tree.means_literal c
  | endMark => exact Tree.means_literal '$'
  | delimiter => exact means_delimiter form
  | dot => exact (means_negatedClass []).congr fun w => by simp [Symbol.Matches]
  | bracket negated m ms =>
    cases negated with
    | false => exact means_plainClass (m :: ms)
    | true => exact means_negatedClass (m :: ms)

namespace RouterPattern

variable (form : TextForm)

mutual
/-- **The pieces of a pattern** mean what the pattern matches. -/
theorem rowMeans_pieces : ∀ p : RouterPattern,
    Tree.RowMeans (p.pieces form) (p.Matches form.start)
  | .nothing => .nil
  | .startMark => rowMeans_startPieces form
  | .symbol x => .single (means_symbol form x)
  | .cat p q => (rowMeans_pieces p).append (rowMeans_pieces q)
  | .group p ps =>
    .single (Tree.means_group (Tree.ChoiceMeans.cons (rowMeans_pieces p).ofPieces
      (choiceMeans_piecesMore ps)).ofBranches)
  | .repeated p t => by
    have hbody := (rowMeans_pieces p).ofPieces
    refine .single (Tree.means_repetition ?_ t.min_le)
    split
    · exact hbody
    · exact Tree.means_group hbody

theorem choiceMeans_piecesMore : ∀ ps : List RouterPattern,
    Tree.ChoiceMeans ((piecesMore form ps).map .ofPieces) (SomeMatches form.start ps)
  | [] => .nil
  | p :: ps => .cons (rowMeans_pieces p).ofPieces (choiceMeans_piecesMore ps)
end

end RouterPattern
end RouteSolver
