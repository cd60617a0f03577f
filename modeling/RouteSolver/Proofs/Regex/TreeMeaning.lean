/-
# What written expressions mean

A tree that changes no modes has the language of its expression under the modes that a pattern
starts with (`Tree.Means`). As with expressions there is one rule for each way of building trees.
Pieces in a row and branches to choose from get rules of their own (`RowMeans`, `ChoiceMeans`),
since the reader folds them into trees only when all of them are there.
-/

import RouteSolver.Proofs.Regex.Language
import RouteSolver.Proofs.Regex.Reading
import RouteSolver.Proofs.Text.Ascii
import RouteSolver.Regex.Meaning

namespace RouteSolver
namespace Regex

/-! ### Classes -/

namespace ClassTree

theorem bytes?_ofItems (m : Modes) (ts : List ClassTree) :
    (ofItems ts).bytes? m = unionBytes? m ts := by
  match ts with
  | [] => rw [ofItems, bytes?, unionBytes?]
  | [t] =>
    rw [ofItems, unionBytes?, unionBytes?]
    cases t.bytes? m with
    | none => rfl
    | some s => exact congrArg (fun mask => some (⟨mask⟩ : ByteSet)) (Nat.or_zero _).symm
  | _ :: _ :: _ =>
    rw [ofItems, bytes?]
    all_goals nofun

/-- **A class has the bytes of its items.** -/
theorem exists_unionBytes? {m : Modes} {ts : List ClassTree} {ss : List ByteSet}
    (h : List.Forall₂ (fun t s => t.bytes? m = some s) ts ss) :
    ∃ s, unionBytes? m ts = some s ∧
      ∀ b, s.contains b = true ↔ ∃ r ∈ ss, r.contains b = true := by
  induction h with
  | nil => exact ⟨.empty, by rw [unionBytes?], fun b => by simp [ByteSet.contains_empty]⟩
  | @cons t r ts ss ht _ ih =>
    obtain ⟨s, hs, hcontains⟩ := ih
    refine ⟨r.union s, ?_, fun b => ?_⟩
    · rw [unionBytes?, ht, hs]
      rfl
    · rw [ByteSet.contains_union, Bool.or_eq_true, hcontains]
      simp

end ClassTree

/-! ### Trees -/

namespace Tree

/-- The tree changes no modes, and its expression has the language. -/
def Means (t : Tree) (l : List UInt8 → Prop) : Prop :=
  ∃ e, t.toExpr? .start = some (e, .start) ∧ e.Means l

/-- What the trees mean one after the other. -/
def RowMeans (ts : List Tree) (l : List UInt8 → Prop) : Prop :=
  ∃ es, toExprs? .start ts = some (es, .start) ∧ Expr.SeqMeans es l

/-- What the trees mean as branches to choose from. -/
def ChoiceMeans (ts : List Tree) (l : List UInt8 → Prop) : Prop :=
  ∃ es, toExprs? .start ts = some (es, .start) ∧ (Expr.oneOf es).Means l

section
variable {t : Tree} {ts us : List Tree} {es fs : List Expr} {l k : List UInt8 → Prop}

theorem toExprs?_cons {m n k : Modes} {e : Expr} (ht : t.toExpr? m = some (e, n))
    (hts : toExprs? n ts = some (es, k)) : toExprs? m (t :: ts) = some (e :: es, k) := by
  rw [toExprs?, ht]
  simp only [Option.bind_eq_bind, Option.bind_some, hts]
  rfl

theorem exists_of_toExprs?_cons {m k : Modes} (h : toExprs? m (t :: ts) = some (fs, k)) :
    ∃ e es n, t.toExpr? m = some (e, n) ∧ toExprs? n ts = some (es, k) ∧ fs = e :: es := by
  rw [toExprs?] at h
  obtain ⟨⟨e, n⟩, ht, h⟩ := Option.bind_eq_some_iff.1 h
  obtain ⟨⟨es, k'⟩, hts, h⟩ := Option.bind_eq_some_iff.1 h
  obtain ⟨rfl, rfl⟩ := Prod.mk.inj (Option.some.inj h)
  exact ⟨e, es, n, ht, hts, rfl⟩

theorem toExprs?_append {m n k : Modes} (hts : toExprs? m ts = some (es, n))
    (hus : toExprs? n us = some (fs, k)) : toExprs? m (ts ++ us) = some (es ++ fs, k) := by
  induction ts generalizing m es with
  | nil =>
    rw [toExprs?] at hts
    obtain ⟨rfl, rfl⟩ := Prod.mk.inj (Option.some.inj hts)
    exact hus
  | cons t ts ih =>
    obtain ⟨e, gs, j, ht, hgs, rfl⟩ := exists_of_toExprs?_cons hts
    exact toExprs?_cons ht (ih hgs)

theorem Means.congr (h : t.Means l) (hlk : ∀ w, l w ↔ k w) : t.Means k := by
  obtain ⟨e, he, hmeans⟩ := h
  exact ⟨e, he, hmeans.congr hlk⟩

theorem RowMeans.congr (h : RowMeans ts l) (hlk : ∀ w, l w ↔ k w) : RowMeans ts k := by
  obtain ⟨es, hes, hmeans⟩ := h
  exact ⟨es, hes, hmeans.congr hlk⟩

theorem RowMeans.nil : RowMeans [] (· = []) := ⟨[], by rw [toExprs?], .nil⟩

theorem RowMeans.single (h : t.Means l) : RowMeans [t] l := by
  obtain ⟨e, he, hmeans⟩ := h
  exact ⟨[e], toExprs?_cons he (by rw [toExprs?]), .single hmeans⟩

theorem RowMeans.append (hts : RowMeans ts l) (hus : RowMeans us k) :
    RowMeans (ts ++ us) fun w => ∃ u v, w = u ++ v ∧ l u ∧ k v := by
  obtain ⟨es, hes, hl⟩ := hts
  obtain ⟨fs, hfs, hk⟩ := hus
  exact ⟨es ++ fs, toExprs?_append hes hfs, hl.append hk⟩

/-- **A row** read as one tree. -/
theorem RowMeans.ofPieces (h : RowMeans ts l) : (Tree.ofPieces ts).Means l := by
  obtain ⟨es, hes, hmeans⟩ := h
  unfold Tree.ofPieces
  split
  · rw [toExprs?] at hes
    obtain ⟨rfl, -⟩ := Prod.mk.inj (Option.some.inj hes)
    exact ⟨.empty, by rw [toExpr?], hmeans.means⟩
  · obtain ⟨e, fs, n, ht, hfs, rfl⟩ := exists_of_toExprs?_cons hes
    rw [toExprs?] at hfs
    obtain ⟨rfl, rfl⟩ := Prod.mk.inj (Option.some.inj hfs)
    exact ⟨e, ht, hmeans.means⟩
  · refine ⟨Expr.seq es, ?_, hmeans.means⟩
    rw [toExpr?, hes]
    rfl

theorem ChoiceMeans.nil : ChoiceMeans [] fun _ => False := ⟨[], by rw [toExprs?], .never⟩

theorem ChoiceMeans.congr (h : ChoiceMeans ts l) (hlk : ∀ w, l w ↔ k w) : ChoiceMeans ts k := by
  obtain ⟨es, hes, hmeans⟩ := h
  exact ⟨es, hes, hmeans.congr hlk⟩

theorem ChoiceMeans.cons (ht : t.Means l) (hts : ChoiceMeans ts k) :
    ChoiceMeans (t :: ts) fun w => l w ∨ k w := by
  obtain ⟨e, he, hl⟩ := ht
  obtain ⟨es, hes, hk⟩ := hts
  exact ⟨e :: es, toExprs?_cons he hes, hl.oneOf_cons hk⟩

/-- **Branches** read as one tree. -/
theorem ChoiceMeans.ofBranches (h : ChoiceMeans ts l) : (Tree.ofBranches ts).Means l := by
  obtain ⟨es, hes, hmeans⟩ := h
  unfold Tree.ofBranches
  split
  · obtain ⟨e, fs, n, ht, hfs, rfl⟩ := exists_of_toExprs?_cons hes
    rw [toExprs?] at hfs
    obtain ⟨rfl, rfl⟩ := Prod.mk.inj (Option.some.inj hfs)
    exact ⟨e, ht, hmeans⟩
  · refine ⟨Expr.oneOf es, ?_, hmeans⟩
    rw [toExpr?, hes]
    rfl

theorem means_group (h : t.Means l) : (Tree.group [] t).Means l := by
  obtain ⟨e, he, hmeans⟩ := h
  refine ⟨e, ?_, hmeans⟩
  have hmodes : Modes.start.change [] = .start := rfl
  rw [toExpr?, hmodes, he]
  rfl

theorem means_repetition (h : t.Means l) {min : Nat} {max : Option Nat} (hle : ∀ n ∈ max, min ≤ n) :
    (Tree.repetition t min max).Means
      (Expr.Repeats l fun n => min ≤ n ∧ ∀ m ∈ max, n ≤ m) := by
  obtain ⟨e, he, hmeans⟩ := h
  refine ⟨e.repeated min max, ?_, hmeans.repeated hle⟩
  rw [toExpr?, he]
  rfl

/-- A character outside brackets means its bytes. -/
theorem means_literal (c : Char) :
    (Tree.literal ⟨c, false⟩).Means (· = String.utf8EncodeChar c) := by
  refine ⟨_, by rw [toExpr?], ?_⟩
  rw [Literal.toExpr, Literal.byte?, Bool.false_or]
  by_cases hc : c.toNat < 128
  · have hlt : UInt8.ofNat c.toNat < 128 := by
      rw [UInt8.lt_iff_toNat_lt]
      exact (Utf8.toNat_byteOf hc).symm ▸ hc
    have hencode : String.utf8EncodeChar c = [UInt8.ofNat c.toNat] :=
      Utf8.utf8EncodeChar_of_ascii hc
    rw [if_pos (decide_eq_true hc), hencode]
    simp only [if_pos hlt]
    exact Expr.Means.literal [UInt8.ofNat c.toNat]
  · rw [if_neg (Bool.eq_false_iff.1 (decide_eq_false hc))]
    exact .literal _

/-- Characters in a row mean their bytes. -/
theorem rowMeans_literals (cs : List Char) :
    RowMeans (cs.map piece) (· = cs.flatMap String.utf8EncodeChar) := by
  induction cs with
  | nil => exact .nil
  | cons c cs ih =>
    refine ((RowMeans.single (means_literal c)).append ih).congr fun w => ?_
    rw [List.flatMap_cons]
    exact ⟨by rintro ⟨_, _, rfl, rfl, rfl⟩; rfl, fun h => ⟨_, _, h, rfl, rfl⟩⟩

theorem means_bracket {negated : Bool} {ts : List ClassTree} {ss : List ByteSet}
    (h : List.Forall₂ (fun t s => t.bytes? .start = some s) ts ss) :
    (Tree.bracket negated (.ofItems ts)).Means fun w => ∃ b, w = [b] ∧
      if negated then ∀ s ∈ ss, s.contains b = false else ∃ s ∈ ss, s.contains b = true := by
  obtain ⟨s, hs, hcontains⟩ := ClassTree.exists_unionBytes? h
  refine ⟨.byte (Modes.complementIf negated s), ?_, ?_⟩
  · rw [toExpr?, ClassTree.bytes?_ofItems, hs]
    rfl
  · refine (Expr.Means.byte _).congr fun w => exists_congr fun b => ?_
    rw [and_comm]
    refine and_congr_right fun _ => ?_
    cases negated with
    | false => exact hcontains b
    | true =>
      rw [Modes.complementIf, if_pos rfl, ByteSet.contains_compl, Bool.not_eq_true',
        ← Bool.not_eq_true, hcontains]
      simp

end

end Tree

/-- Anything but line feeds. -/
theorem means_anyPiece : anyPiece.Means fun w => ∀ b ∈ w, b ≠ 10 := by
  refine ⟨.star (.byte Modes.start.dot), ?_, (Expr.Means.star_byte _).congr fun w => ?_⟩
  · rw [Tree.toExpr?, Tree.toExpr?]
    rfl
  · refine forall₂_congr fun b _ => ?_
    have hdot : Modes.start.dot = (ByteSet.single 10).compl := rfl
    rw [hdot, ByteSet.contains_compl, ByteSet.contains_single, Bool.not_eq_true',
      decide_eq_false_iff_not]

end Regex
end RouteSolver
