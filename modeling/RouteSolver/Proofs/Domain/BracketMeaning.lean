/-
# What classes in router patterns mean

The expansion of a class without brackets inside has the bytes of the class. If the class is
negated, the marks are put among its members, on the right side of its last operator if there is
one. That changes nothing but the marks, and leaves them out as it should unless an operator is in
the way (`ClassText.expanded_exact`): an intersection needs them on its left side too, a difference
never has them, a symmetric difference has those that are not on its left side.

With a named class or another bracket inside, the expansion takes a closing bracket for the last one
that is not. A negated class may then have its own members (`ClassText.digits_not_excluded`).
-/

import RouteSolver.Proofs.Domain.BracketExpansion
import RouteSolver.Proofs.Domain.RouterSearch

namespace RouteSolver

open Delimited Regex Utf8

/-! ### Members and marks -/

namespace Regex

/-- The two marks as members. -/
def markMembers : List ClassTree := [.literal ⟨'^', false⟩, .literal ⟨'$', false⟩]

section
variable {m : Modes} {s s' l : ByteSet} {ts : List ClassTree} {b : UInt8}

theorem exists_unionBytes?_append {ts us : List ClassTree} {s t : ByteSet}
    (hts : ClassTree.unionBytes? m ts = some s) (hus : ClassTree.unionBytes? m us = some t) :
    ∃ r, ClassTree.unionBytes? m (ts ++ us) = some r ∧
      ∀ b, r.contains b = (s.contains b || t.contains b) := by
  induction ts generalizing s with
  | nil =>
    rw [ClassTree.unionBytes?] at hts
    cases hts
    exact ⟨t, hus, fun b => by rw [ByteSet.contains_empty, Bool.false_or]⟩
  | cons u ts ih =>
    rw [ClassTree.unionBytes?] at hts
    obtain ⟨x, hx, hts⟩ := Option.bind_eq_some_iff.1 hts
    obtain ⟨y, hy, hts⟩ := Option.bind_eq_some_iff.1 hts
    cases hts
    obtain ⟨r, hr, hcontains⟩ := ih hy
    refine ⟨x.union r, ?_, fun b => ?_⟩
    · rw [List.cons_append, ClassTree.unionBytes?, hx, hr]
      rfl
    · rw [ByteSet.contains_union, ByteSet.contains_union, hcontains, Bool.or_assoc]

theorem unionBytes?_markMembers (m : Modes) : ∃ t, ClassTree.unionBytes? m markMembers = some t ∧
    ∀ b, t.contains b = true ↔ IsMark b := by
  refine ⟨(ByteSet.single (byteOf '^')).union ((ByteSet.single (byteOf '$')).union .empty), ?_,
    fun b => ?_⟩
  · rw [markMembers, ClassTree.unionBytes?, ClassTree.unionBytes?, ClassTree.unionBytes?,
      ClassTree.bytes?, ClassTree.bytes?]
    rfl
  · rw [ByteSet.contains_union, ByteSet.contains_union, ByteSet.contains_single,
      ByteSet.contains_single, ByteSet.contains_empty, Bool.or_false, Bool.or_eq_true,
      decide_eq_true_iff, decide_eq_true_iff]
    rfl

/-- Members with the marks among them. -/
theorem exists_bytes?_marks (h : (ClassTree.ofItems ts).bytes? m = some s) :
    ∃ s', (ClassTree.ofItems (ts ++ markMembers)).bytes? m = some s' ∧
      ∀ b, s'.contains b = true ↔ s.contains b = true ∨ IsMark b := by
  obtain ⟨t, ht, hmarks⟩ := unionBytes?_markMembers m
  rw [ClassTree.bytes?_ofItems] at h
  obtain ⟨s', hs', hcontains⟩ := exists_unionBytes?_append h ht
  refine ⟨s', by rw [ClassTree.bytes?_ofItems, hs'], fun b => ?_⟩
  rw [hcontains, Bool.or_eq_true, hmarks]

theorem toNat_of_isMark (hb : IsMark b) : b.toNat = 94 ∨ b.toNat = 36 := by
  rcases hb with rfl | rfl
  · exact .inl rfl
  · exact .inr rfl

/-- Folding does not make members of the marks. -/
theorem contains_fold_mark (m : Modes) (s : ByteSet) (hb : IsMark b) :
    (m.fold s).contains b = s.contains b := by
  rw [Modes.fold]
  split
  · have hn := toNat_of_isMark hb
    have hsmall : ¬(97 ≤ b.toNat ∧ b.toNat ≤ 122) := by omega
    have hcapital : ¬(65 ≤ b.toNat ∧ b.toNat ≤ 90) := by omega
    rw [ByteSet.contains_foldCase, decide_eq_false hsmall, decide_eq_false hcapital,
      Bool.false_and, Bool.false_and, Bool.or_false, Bool.or_false]
  · rfl

/-- Sets that differ in the marks only still do so when they are folded. -/
theorem contains_fold_congr (h : ∀ b, ¬IsMark b → s'.contains b = s.contains b) (hb : ¬IsMark b) :
    (m.fold s').contains b = (m.fold s).contains b := by
  rw [Modes.fold, Modes.fold]
  split
  · have hsmall : (decide (97 ≤ b.toNat ∧ b.toNat ≤ 122) && s'.contains (b - 32)) =
        (decide (97 ≤ b.toNat ∧ b.toNat ≤ 122) && s.contains (b - 32)) := by
      by_cases hn : 97 ≤ b.toNat ∧ b.toNat ≤ 122
      · have hle : (32 : UInt8) ≤ b := UInt8.le_iff_toNat_le.2 (Nat.le_trans (by decide) hn.1)
        have hsub : (b - 32).toNat = b.toNat - 32 := UInt8.toNat_sub_of_le b 32 hle
        rw [h _ fun hmark => by have := toNat_of_isMark hmark; omega]
      · rw [decide_eq_false hn, Bool.false_and, Bool.false_and]
    have hcapital : (decide (65 ≤ b.toNat ∧ b.toNat ≤ 90) && s'.contains (b + 32)) =
        (decide (65 ≤ b.toNat ∧ b.toNat ≤ 90) && s.contains (b + 32)) := by
      by_cases hn : 65 ≤ b.toNat ∧ b.toNat ≤ 90
      · have hlt : b.toNat + 32 < 2 ^ 8 := by omega
        have hadd : (b + 32).toNat = b.toNat + 32 := by
          rw [UInt8.toNat_add]
          exact Nat.mod_eq_of_lt hlt
        rw [h _ fun hmark => by have := toNat_of_isMark hmark; omega]
      · rw [decide_eq_false hn, Bool.false_and, Bool.false_and]
    rw [ByteSet.contains_foldCase, ByteSet.contains_foldCase, h b hb, hsmall, hcapital]
  · exact h b hb

/-- An operator on the truth of two memberships. -/
def ClassOperator.combine : ClassOperator → Bool → Bool → Bool
  | .intersection, p, q => p && q
  | .difference, p, q => p && !q
  | .symmetricDifference, p, q => p ^^ q

theorem contains_apply (op : ClassOperator) (s t : ByteSet) (b : UInt8) :
    (op.apply s t).contains b = op.combine (s.contains b) (t.contains b) := by
  cases op with
  | intersection => exact ByteSet.contains_inter s t b
  | difference => exact ByteSet.contains_diff s t b
  | symmetricDifference => exact ByteSet.contains_symmDiff s t b

/-- A byte that is put on the right side of the last operator is in the class then; without an
operator it always is. -/
def ClassTree.Admits (m : Modes) (b : UInt8) : ClassTree → Prop
  | .operation op left _ => ∀ l ∈ left.bytes? m, (op.apply (m.fold l) .full).contains b = true
  | _ => True

theorem admits_ofItems (hts : ∀ t ∈ ts, t.height = 0) : (ClassTree.ofItems ts).Admits m b := by
  match ts with
  | [] => trivial
  | [t] =>
    have ht := hts t (List.mem_singleton.2 rfl)
    cases t with
    | operation op left right => cases ht
    | _ => trivial
  | _ :: _ :: _ => trivial

/-- Operands with the marks on the right side. -/
theorem exists_bytes?_operation {op : ClassOperator} {left : ClassTree}
    (h : (ClassTree.operation op left (.ofItems ts)).bytes? m = some s) :
    ∃ s', (ClassTree.operation op left (.ofItems (ts ++ markMembers))).bytes? m = some s' ∧
      (∀ b, ¬IsMark b → s'.contains b = s.contains b) ∧
      ∀ b, IsMark b → (s'.contains b = true ↔
        (ClassTree.operation op left (.ofItems ts)).Admits m b) := by
  rw [ClassTree.bytes?] at h
  obtain ⟨l, hl, h⟩ := Option.bind_eq_some_iff.1 h
  obtain ⟨r, hr, h⟩ := Option.bind_eq_some_iff.1 h
  cases h
  obtain ⟨r', hr', hcontains⟩ := exists_bytes?_marks hr
  have hagree : ∀ b, ¬IsMark b → r'.contains b = r.contains b := fun b hb => by
    rw [Bool.eq_iff_iff, hcontains, or_iff_left hb]
  refine ⟨op.apply (m.fold l) (m.fold r'), ?_, fun b hb => ?_, fun b hb => ?_⟩
  · rw [ClassTree.bytes?, hl, hr']
    rfl
  · rw [contains_apply, contains_apply, contains_fold_congr hagree hb]
  · have hmark : (m.fold r').contains b = true := by
      rw [contains_fold_mark m r' hb, hcontains]
      exact .inr hb
    have hadmits : (ClassTree.operation op left (.ofItems ts)).Admits m b ↔
        (op.apply (m.fold l) .full).contains b = true := by
      rw [ClassTree.Admits, hl]
      exact ⟨fun h => h l rfl, fun h _ hl => Option.some.inj hl ▸ h⟩
    rw [hadmits, contains_apply, contains_apply, hmark, ByteSet.contains_full]

end

end Regex

namespace ClassText

open Bracket

section
variable {st : State} {negated : Bool} {cs rest : List Char}

/-- The state with the marks read. -/
def pushMarks (st : State) : State :=
  (st.push (.literal ⟨'^', false⟩)).push (.literal ⟨'$', false⟩)

theorem leads_marks (st : State) (rest : List Char) :
    Leads st ('\\' :: '^' :: '\\' :: '$' :: ']' :: rest) (pushMarks st) (']' :: rest) :=
  ⟨2, by simp only [List.length_cons]; omega, fun n => by rw [Nat.add_comm]; rfl⟩

/-- **The marks put at the end of a class** change nothing but the marks in it, and it has those
that its last operator admits. -/
theorem exists_close_marks (h : Inside negated st) :
    ∃ inner inner', st.close = (inner, [.bracket [] negated]) ∧
      (pushMarks st).close = (inner', [.bracket [] negated]) ∧
      ∀ m s, inner.bytes? m = some s → ∃ s', inner'.bytes? m = some s' ∧
        (∀ b, ¬IsMark b → s'.contains b = s.contains b) ∧
        ∀ b, IsMark b → (s'.contains b = true ↔ inner.Admits m b) := by
  have hreverse : ∀ ts : List ClassTree,
      (.literal ⟨'$', false⟩ :: .literal ⟨'^', false⟩ :: ts).reverse = ts.reverse ++ markMembers :=
    fun ts => by
      rw [List.reverse_cons, List.reverse_cons, List.append_assoc]
      rfl
  cases h with
  | @items ts hts =>
    refine ⟨.ofItems ts.reverse, .ofItems (ts.reverse ++ markMembers), rfl, ?_, fun m s hs => ?_⟩
    · rw [← hreverse]
      rfl
    · obtain ⟨s', hs', hcontains⟩ := exists_bytes?_marks hs
      have hadmits : ∀ b, (ClassTree.ofItems ts.reverse).Admits m b := fun b =>
        admits_ofItems fun t ht => hts t (List.mem_reverse.1 ht)
      refine ⟨s', hs', fun b hb => ?_, fun b hb => ?_⟩
      · rw [Bool.eq_iff_iff, hcontains, or_iff_left hb]
      · exact iff_of_true ((hcontains b).2 (.inr hb)) (hadmits b)
  | @operation ts op left =>
    refine ⟨.operation op left (.ofItems ts.reverse),
      .operation op left (.ofItems (ts.reverse ++ markMembers)), rfl, ?_,
      fun m s hs => exists_bytes?_operation hs⟩
    rw [← hreverse]
    rfl

end

/-- A class that is read as `t` has the bytes of `s`. -/
def Denotes (m : Modes) (t : Tree) (s : ByteSet) : Prop := t.toExpr? m = some (.byte s, m)

theorem denotes_bracket_iff {m : Modes} {negated : Bool} {inner : ClassTree} {e : ByteSet} :
    Denotes m (.bracket negated inner) e ↔
      ∃ s, inner.bytes? m = some s ∧ e = Modes.complementIf negated (m.fold s) := by
  rw [Denotes, Tree.toExpr?]
  cases inner.bytes? m with
  | none =>
    refine iff_of_false (fun h => by cases h) ?_
    rintro ⟨s, hs, -⟩
    cases hs
  | some s =>
    constructor
    · intro h
      cases h
      exact ⟨s, rfl, rfl⟩
    · rintro ⟨_, hs, rfl⟩
      cases hs
      rfl

/-- **A class without brackets inside** keeps its bytes where a pattern is spelled out, in all modes
but the verbose one: it is copied, and the copy is read as a class with the same sign and the same
end. Without the sign it has the same bytes. With the sign it has the same bytes up to the marks,
and it excludes those marks that the last operator of its members admits; without an operator it
excludes both. No dash may make a range with a leading bracket or with the marks. -/
theorem expanded_exact (c : ClassText) {start delimiter pre pre' rest : List Char}
    {r : Tree × List Char} (hpre : Expands start delimiter pre pre') (hplain : Plain c.body)
    (h : Bracket.read false (c.text ++ rest) = some r)
    (hlead : c.leading = true → ¬BeginsRange c.body)
    (hopen : c.negated = true → ¬OpenDash c.contents) :
    (∀ post, expandFrom start delimiter .outside (pre ++ (c.text ++ post)) =
      pre' ++ (c.expanded ++ expandFrom start delimiter .outside post)) ∧
    ∃ inner inner',
      (∀ post, Bracket.read false (c.text ++ post) = some (.bracket c.negated inner, post)) ∧
      (∀ post, Bracket.read false (c.expanded ++ post) =
        some (.bracket c.negated inner', post)) ∧
      ∀ m s, Denotes m (.bracket c.negated inner) s →
        ∃ s', Denotes m (.bracket c.negated inner') s' ∧
          (c.negated = false → s' = s) ∧
          (c.negated = true → (∀ b, ¬IsMark b → s'.contains b = s.contains b) ∧
            ∀ b, IsMark b → (s'.contains b = false ↔ inner.Admits m b)) := by
  refine ⟨fun post => ?_, ?_⟩
  · rw [hpre, expands_text]
  obtain ⟨st, hin, htext, hclosing, hescaping⟩ := exists_reaches c hplain h hlead
  obtain ⟨inner, inner', hinner, hinner', hbytes⟩ := exists_close_marks hin
  cases hneg : c.negated with
  | false =>
    rw [hneg] at hinner
    have hexpanded : ∀ post, c.expanded ++ post =
        '[' :: (sign c.negated ++ (c.contents ++ ']' :: post)) := by
      simp [expanded, hneg, marks]
    refine ⟨inner, inner, fun post => read_of_leads (htext post) hinner, fun post => ?_,
      fun m s hs => ⟨s, hs, fun _ => rfl, fun h => absurd h Bool.false_ne_true⟩⟩
    rw [hexpanded]
    exact read_of_leads (hclosing post) hinner
  | true =>
    rw [hneg] at hinner hinner'
    have hexpanded : ∀ post, c.expanded ++ post = '[' :: (sign c.negated ++
        (c.contents ++ '\\' :: ('^' :: '\\' :: '$' :: ']' :: post))) := by
      simp [expanded, hneg, marks]
    refine ⟨inner, inner', fun post => read_of_leads (htext post) hinner, fun post => ?_,
      fun m s hs => ?_⟩
    · rw [hexpanded]
      exact read_of_leads ((hescaping (hopen hneg) _).trans (leads_marks st post)) hinner'
    · obtain ⟨s₀, hs₀, rfl⟩ := denotes_bracket_iff.1 hs
      obtain ⟨s', hs', hagree, hmarks⟩ := hbytes m s₀ hs₀
      refine ⟨_, denotes_bracket_iff.2 ⟨s', hs', rfl⟩, fun h => absurd h.symm Bool.false_ne_true,
        fun _ => ⟨fun b hb => ?_, fun b hb => ?_⟩⟩
      · rw [Modes.complementIf, Modes.complementIf, if_pos rfl, if_pos rfl,
          ByteSet.contains_compl, ByteSet.contains_compl, contains_fold_congr hagree hb]
      · rw [Modes.complementIf, if_pos rfl, ByteSet.contains_compl, Bool.not_eq_false',
          contains_fold_mark m s' hb, hmarks b hb]

/-- The class of everything but a bracket and three letters. -/
def bracketToC : ClassText where
  negated := true
  leading := true
  body := ['a', '-', 'c']
  closed := .char (by decide) (.char (by decide) (.char (by decide) .nil))
  begins h := absurd h.symm Bool.false_ne_true

theorem not_openDash_bracketToC : ¬OpenDash bracketToC.contents := by
  have hnil : ¬OpenDash [] := by
    intro h
    cases h with
    | last _ h => cases h
    | operator h _ => cases h
    | single _ h _ _ => cases h
    | range _ h _ _ _ => cases h
  have hrange : ¬OpenDash ['a', '-', 'c'] := by
    intro h
    cases h with
    | last _ h => cases h
    | operator h _ => cases h
    | single _ h hdash _ =>
      cases h
      exact absurd (hdash _ rfl) (by decide)
    | range _ h _ hlast h' =>
      cases h
      cases hlast
      exact hnil h'
  intro h
  cases h with
  | last _ h => cases h
  | operator h _ => cases h
  | single _ h _ h' =>
    cases h
    exact hrange h'
  | range _ h _ _ _ => cases h

theorem expanded_exact_bracketToC :
    bracketToC.text = "[^]a-c]".toList ∧ bracketToC.expanded = "[^\\]a-c\\^\\$]".toList ∧
    ∃ inner inner',
      (∀ post, Bracket.read false (bracketToC.text ++ post) = some (.bracket true inner, post)) ∧
      (∀ post, Bracket.read false (bracketToC.expanded ++ post) =
        some (.bracket true inner', post)) ∧
      ∀ m s, Denotes m (.bracket true inner) s → ∃ s', Denotes m (.bracket true inner') s' ∧
        (∀ b, ¬IsMark b → s'.contains b = s.contains b) ∧
        ∀ b, IsMark b → (s'.contains b = false ↔ inner.Admits m b) := by
  have hpre : Expands ['\\', '^'] [' '] [] [] := fun _ => rfl
  have hplain : Plain bracketToC.body :=
    .char (by decide) (.char (by decide) (.char (by decide) .nil))
  have hread : Bracket.read false (bracketToC.text ++ []) = some (.bracket true (.union
      [.literal ⟨']', false⟩, .range ⟨'a', false⟩ ⟨'c', false⟩]), []) := rfl
  have hlead : bracketToC.leading = true → ¬BeginsRange bracketToC.body := by
    rintro - ⟨d, ds, h, -⟩
    cases h
  obtain ⟨-, inner, inner', htext, hexpanded, hbytes⟩ :=
    expanded_exact bracketToC hpre hplain hread hlead fun _ => not_openDash_bracketToC
  refine ⟨rfl, rfl, inner, inner', htext, hexpanded, fun m s hs => ?_⟩
  obtain ⟨s', hs', -, hmarks⟩ := hbytes m s hs
  exact ⟨s', hs', hmarks rfl⟩

/-- After a leading bracket a dash makes a range in the expansion. -/
example : Bracket.read false "[]-a]".toList = some (.bracket false (.union
      [.literal ⟨']', false⟩, .literal ⟨'-', false⟩, .literal ⟨'a', false⟩]), []) ∧
    Bracket.read false (expandFrom ['\\', '^'] [' '] .outside "[]-a]".toList) =
      some (.bracket false (.range ⟨']', false⟩ ⟨'a', false⟩), []) := ⟨rfl, rfl⟩

/-- Before the marks it does so too. -/
example : Bracket.read false "[^0-]".toList = some (.bracket true (.union
      [.literal ⟨'0', false⟩, .literal ⟨'-', false⟩]), []) ∧
    Bracket.read false (expandFrom ['\\', '^'] [' '] .outside "[^0-]".toList) =
      some (.bracket true (.union [.range ⟨'0', false⟩ ⟨'^', false⟩, .literal ⟨'$', false⟩]), []) :=
  ⟨rfl, rfl⟩

/-- **A named class ends the bracket** around it for the expansion. The marks are put inside the
name, which is a name no longer: the expansion of everything but digits excludes the letters of the
name, and it has the digits. -/
theorem digits_not_excluded :
    (∃ t s, Bracket.read false "[^[:digit:]]".toList = some (t, []) ∧
      Denotes .start t s ∧ s.contains (byteOf '1') = false) ∧
    (∃ t s, Bracket.read false "[^[:digit:\\^\\$]]".toList = some (t, []) ∧
      Denotes .start t s ∧ s.contains (byteOf '1') = true) ∧
    Delimited.communityPattern "^[^[:digit:]]" = ".*\\^[^[:digit:\\^\\$]].*" ∧
    ∃ a, matchingCommunities "^[^[:digit:]]" = .ok a ∧ a.accepts "^1:1$" = true := by
  refine ⟨⟨_, _, rfl, rfl, by decide⟩, ⟨_, _, rfl, rfl, by decide⟩, by decide, ?_⟩
  have hall : allCommunities.acceptsBytes (bytes "^1:1$") = true := by
    refine (acceptsBytes_allCommunities _).2 ⟨1, 1, by decide, by decide, ?_⟩
    rw [communityChars, colonNumbers, Decimal.digits_of_lt (by decide)]
    decide
  have hfound : ((Expr.read? (Delimited.communityPattern "^[^[:digit:]]")).any fun e =>
      ((bytes "^1:1$").foldl Reading.next (Reading.start e)).accepts) = true := by decide
  cases he : Expr.read? (Delimited.communityPattern "^[^[:digit:]]") with
  | none =>
    rw [he] at hfound
    cases hfound
  | some e =>
    rw [he] at hfound
    have hvalid := Automaton.valid_ofExpr e
    refine ⟨(Automaton.ofExpr e).inter allCommunities, ?_, ?_⟩
    · rw [matchingCommunities, Automaton.ofPattern, he]
      rfl
    · rw [Automaton.accepts, hvalid.acceptsBytes_inter valid_allCommunities, hall, Bool.and_true,
        Automaton.acceptsBytes_ofExpr]
      exact (Reading.accepts_foldl_iff e _).1 hfound

end ClassText
end RouteSolver
