/-
# Asking again

What has been asked for once is free from then on: the same operation on the same diagrams, after
whatever has been asked for in between, gives the same diagram again and leaves the store exactly as
it is (`Session.asked_again`). The least complete model is the exception that its name suggests: it
fixes all variables that have been named, so no further one may have been named in between, and
another diagram comes out if one has (`Store.Reachable.leastModel_ne`).

Stores only ever grow (`Store.GrowsTo`): nodes stay, and operands whose result is known stay known.
The result itself need not be followed through the tables, since a valid store has only one diagram
for a function. So a computation repeats (`Repeats`) if its second run finds everything, and this is
put together from single steps. Negation and the connectives find their operands in a table, where
the order of the two does not count (`Store.Valid.combine_comm`); cubes are built anew, from nodes
that the index finds.
-/

import RouteSolver.Proofs.Diagram.LeastModel
import RouteSolver.Proofs.Diagram.Recursion
import RouteSolver.Proofs.Diagram.Session

namespace RouteSolver
namespace Diagram

/-! ### Growing -/

/-- The store `t` is later than `s`, and knows a result for all operands for which `s` knows one. -/
structure Store.GrowsTo (s t : Store) : Prop where
  le : s ≤ t
  negated : ∀ r, r ∈ s.negated → r ∈ t.negated
  combined : ∀ k, k ∈ s.combined → k ∈ t.combined

namespace Store.GrowsTo

variable {s t u : Store}

theorem refl (s : Store) : s.GrowsTo s := ⟨le_rfl, fun _ h => h, fun _ h => h⟩

theorem trans (h : s.GrowsTo t) (k : t.GrowsTo u) : s.GrowsTo u where
  le := h.le.trans k.le
  negated r hr := k.negated r (h.negated r hr)
  combined key hkey := k.combined key (h.combined key hkey)

theorem insertNegated (s : Store) (r q : Ref) :
    s.GrowsTo { s with negated := s.negated.insert r q } where
  le := s.le_insertNegated r q
  negated _ h := Std.HashMap.mem_insert.2 (.inr h)
  combined _ h := h

theorem insertCombined (s : Store) (key : Connective × Ref × Ref) (q : Ref) :
    s.GrowsTo { s with combined := s.combined.insert key q } where
  le := s.le_insertCombined key q
  negated _ h := h
  combined _ h := Std.HashMap.mem_insert.2 (.inr h)

end Store.GrowsTo

/-- Wherever it is run, the computation lets the store grow. -/
def Grows {α : Type} (m : Build α) : Prop := ∀ s : Store, s.GrowsTo (m s).2

namespace Grows

variable {α β : Type} {m : Build α} {k : α → Build β}

theorem pure (a : α) : Grows (Pure.pure a) := fun s => .refl s

theorem bind (hm : Grows m) (hk : ∀ a, Grows (k a)) : Grows (m >>= k) := fun s =>
  (hm s).trans (hk _ _)

theorem get {k : Store → Build β} (hk : ∀ s, Grows (k s)) : Grows (MonadState.get >>= k) :=
  fun s => hk s s

theorem ite {c : Prop} [Decidable c] {m' : Build α} (hm : Grows m) (hm' : Grows m') :
    Grows (if c then m else m') := by
  split
  · exact hm
  · exact hm'

theorem name (i : Nat) : Grows (name i) := fun _ =>
  ⟨⟨Nat.le_refl _, fun _ _ => rfl, Nat.le_max_left _ _⟩, fun _ h => h, fun _ h => h⟩

theorem ask (i : Nat) (low high : Ref) : Grows (ask i low high) := by
  intro s
  rw [Diagram.ask]
  split
  · exact .refl s
  dsimp only
  split
  · exact .refl s
  · exact ⟨s.le_withNode _, fun _ h => h, fun _ h => h⟩

theorem positive (i : Nat) : Grows (positive i) := (name i).bind fun _ => ask i .bot .top

theorem negative (i : Nat) : Grows (negative i) := (name i).bind fun _ => ask i .top .bot

theorem negWithin (n : Nat) (r : Ref) : Grows (negWithin n r) := by
  induction n generalizing r with
  | zero => exact .pure r
  | succ n ih =>
    intro s
    cases hr : r.isConstant with
    | true => rcases Ref.isConstant_iff.1 hr with rfl | rfl <;> exact .refl s
    | false =>
      rw [negWithin_succ hr]
      cases s.negated[r]? with
      | some q => exact .refl s
      | none =>
        exact (((ih _ s).trans (ih _ _)).trans (Grows.ask _ _ _ _)).trans (.insertNegated _ _ _)

theorem combineWithin (op : Connective) (n : Nat) (a b : Ref) : Grows (combineWithin op n a b) := by
  induction n generalizing a b with
  | zero => exact .pure a
  | succ n ih =>
    rw [Diagram.combineWithin]
    refine .ite (.pure _) (.ite (.pure _) (.ite (.pure _) (.get fun s => ?_)))
    dsimp only
    split
    · exact .pure _
    · refine .get fun _ => .get fun _ => .get fun _ => .get fun _ => ?_
      exact (ih _ _).bind fun _ => (ih _ _).bind fun _ => (Grows.ask _ _ _).bind fun _ t =>
        .insertCombined t _ _

theorem combineFrom (op : Connective) (acc : Ref) (rs : List Ref) :
    Grows (combineFrom op acc rs) := by
  induction rs generalizing acc with
  | nil => exact .pure acc
  | cons r rs ih => exact (combineWithin op _ acc r).bind fun next => .ite (.pure next) (ih next)

theorem literalAnd (i : Nat) (b : Bool) (rest : Ref) : Grows (literalAnd i b rest) :=
  .ite (ask i .bot rest) (ask i rest .bot)

theorem cube (path : List (Nat × Bool)) : Grows (cube path) := by
  induction path with
  | nil => exact .pure _
  | cons q rest ih => exact ih.bind fun below => literalAnd q.1 q.2 below

/-- **Every operation** lets the store grow. -/
theorem run (o : Operation) : Grows o.run := by
  cases o with
  | positive i => exact positive i
  | negative i => exact negative i
  | neg a => exact negWithin _ a
  | conj a b => exact combineWithin .conj _ a b
  | disj a b => exact combineWithin .disj _ a b
  | implies a b => exact (negWithin _ a).bind fun notA => combineWithin .disj _ notA b
  | conjAll rs => exact combineFrom .conj _ rs
  | disjAll rs => exact combineFrom .disj _ rs
  | pathCube a => exact .ite (.pure _) (.get fun s => cube (s.leastPath a))
  | leastModel a =>
    exact .ite (.pure _) (.get fun s => cube (completePath (s.leastPath a) 0 s.variableCount))

end Grows

/-! ### Order of the operands -/

theorem Connective.key_comm (op : Connective) (a b : Ref) : op.key a b = op.key b a := by
  obtain ⟨i⟩ := a
  obtain ⟨j⟩ := b
  unfold key
  dsimp only
  rcases Nat.lt_trichotomy i j with hij | rfl | hij
  · rw [if_pos (Nat.le_of_lt hij), if_neg (Nat.not_le.2 hij)]
  · rfl
  · rw [if_neg (Nat.not_le.2 hij), if_pos (Nat.le_of_lt hij)]

/-- **The operands of a connective may be swapped**: the recursion goes through the same pairs, and
leaves the same store. -/
theorem Store.Valid.combineWithin_comm (op : Connective) {s : Store} {n : Nat} {a b : Ref}
    (hs : s.Valid) (h : s.Covers n a b) :
    combineWithin op n a b s = combineWithin op n b a s := by
  induction n generalizing s a b with
  | zero => exact absurd h.id_add_lt (Nat.not_lt_zero _)
  | succ n ih =>
    by_cases hab : a = b
    · rw [hab]
    by_cases habs : a = op.absorbing ∨ b = op.absorbing
    · rw [combineWithin, if_pos habs, combineWithin, if_pos habs.symm]
    have habs' : ¬(b = op.absorbing ∨ a = op.absorbing) := fun h => habs h.symm
    by_cases ha : a = op.neutral
    · -- the one order returns the second operand, the other the first
      have hb : ¬(b = op.neutral ∨ b = a) := fun h => h.elim (fun h => hab (ha.trans h.symm))
        fun h => hab h.symm
      rw [combineWithin, if_neg habs, if_pos (.inl ha), combineWithin, if_neg habs', if_neg hb,
        if_pos ha]
    by_cases hb : b = op.neutral
    · have ha : ¬(a = op.neutral ∨ a = b) := not_or.2 ⟨ha, hab⟩
      rw [combineWithin, if_neg habs, if_neg ha, if_pos hb, combineWithin, if_neg habs',
        if_pos (.inl hb)]
    have hca : a.isConstant = false := Connective.isConstant_eq_false (not_or.1 habs).1 ha
    have hcb : b.isConstant = false := Connective.isConstant_eq_false (not_or.1 habs).2 hb
    obtain ⟨hlow, ht, hhigh⟩ := hs.covers_cofactors op h hca hcb rfl
    rw [combineWithin_succ hca hcb hab, combineWithin_succ hcb hca (Ne.symm hab), op.key_comm b a,
      Nat.min_comm (s.node b).level]
    dsimp only
    rw [ih ht hhigh, ih hs hlow]

theorem Store.Valid.combine_comm (op : Connective) {s : Store} {a b : Ref} (hs : s.Valid)
    (ha : s.Has a) (hb : s.Has b) : combine op a b s = combine op b a s := by
  unfold combine
  rw [Nat.add_comm b.id a.id]
  exact hs.combineWithin_comm op ⟨ha, hb, Nat.lt_succ_self _⟩

/-! ### Repeating -/

/-- Run once more in any valid store that has grown from the one where the run in `s` has ended, the
computation gives the same result, and leaves that store as it is. -/
def Repeats {α : Type} (s : Store) (m : Build α) : Prop :=
  s.Valid → ∀ u : Store, u.Valid → (m s).2.GrowsTo u → m u = ((m s).1, u)

namespace Repeats

variable {α β : Type} {s : Store} {m : Build α} {k : α → Build β} {p : α → Store → Prop}

theorem pure (a : α) : Repeats s (Pure.pure a) := fun _ _ _ _ => rfl

/-- The store of the first run may be taken to be valid. -/
theorem of_valid (h : s.Valid → Repeats s m) : Repeats s m := fun hs => h hs hs

/-- One computation after another repeats if each of them does. -/
theorem bind (hy : Yields s m p) (hm : Repeats s m) (hgrow : ∀ a, Grows (k a))
    (hk : ∀ a t, s ≤ t → t.Valid → p a t → Repeats t (k a)) : Repeats s (m >>= k) := by
  intro hs u hu hgu
  obtain ⟨ht, hst, hp⟩ := hy hs
  have hfirst : m u = ((m s).1, u) := hm hs u hu ((hgrow _ _).trans hgu)
  show k (m u).1 (m u).2 = _
  rw [hfirst]
  exact hk _ _ hst ht hp ht u hu hgu

theorem ite {c : Prop} [Decidable c] {m' : Build α} (hm : c → Repeats s m)
    (hm' : ¬c → Repeats s m') : Repeats s (if c then m else m') := by
  split
  · exact hm ‹_›
  · exact hm' ‹_›

/-- A computation that leaves later stores as they are repeats if its result denotes the same
function there. -/
theorem of_idle {m : Build Ref} {f : Valuation → Bool}
    (hy : ∀ u, s ≤ u → Yields u m fun q t => t.Denotes q f)
    (hidle : s.Valid → ∀ u : Store, u.Valid → (m s).2.GrowsTo u → (m u).2 = u) :
    Repeats s m := by
  intro hs u hu hgu
  obtain ⟨ht, hst, hq⟩ := hy s le_rfl hs
  obtain ⟨-, -, hq'⟩ := hy u (hst.trans hgu.le) hu
  rw [hidle hs u hu hgu] at hq'
  have hq := hq.mono ht hgu.le
  have hsame : (m u).1 = (m s).1 := hu.eq_of_eval_eq hq'.has hq.has fun v => by
    rw [hq'.eval_eq, hq.eval_eq]
  exact Prod.ext hsame (hidle hs u hu hgu)

theorem name (i : Nat) : Repeats s (name i) := by
  intro _ u _ hgu
  have hi : i + 1 ≤ u.variableCount := (Nat.le_max_right _ _).trans hgu.le.variableCount_le
  show ((), { u with variableCount := max u.variableCount (i + 1) }) = _
  rw [Nat.max_eq_left hi]

/-- **A node is found again.** -/
theorem ask (i : Nat) (low high : Ref) : Repeats s (ask i low high) := by
  intro hs u hu hgu
  by_cases heq : low = high
  · unfold Diagram.ask
    rw [if_pos heq, if_pos heq]
  -- whether it was there before or has been written, the node is there now
  have found : ∀ {t : Store} {r : Ref}, t ≤ u → t.Has r → r.isConstant = false →
      t.node r = ⟨i, low, high⟩ → Diagram.ask i low high u = (r, u) := fun htu h hr hn =>
    ask_known heq ((hu.index_iff _ _).2 ⟨h.mono htu, hr, (htu.node_eq _ h).trans hn⟩)
  cases hnode : s.index[(⟨i, low, high⟩ : Node)]? with
  | some r =>
    rw [ask_known heq hnode] at hgu ⊢
    obtain ⟨h, hr, hn⟩ := (hs.index_iff _ _).1 hnode
    exact found hgu.le h hr hn
  | none =>
    rw [ask_new heq hnode] at hgu ⊢
    have hnew : (⟨s.size⟩ : Ref).isConstant = false :=
      decide_eq_false (Nat.not_lt.2 hs.two_le_size)
    exact found hgu.le (Store.has_withNode_iff.2 (.inr rfl)) hnew (s.node_withNode_self _)

theorem positive (i : Nat) : Repeats s (positive i) :=
  .bind (yields_name i) (.name i) (fun _ => .ask i .bot .top) fun _ _ _ _ _ => .ask i .bot .top

theorem negative (i : Nat) : Repeats s (negative i) :=
  .bind (yields_name i) (.name i) (fun _ => .ask i .top .bot) fun _ _ _ _ _ => .ask i .top .bot

/-! ### Results in the tables -/

variable {r a b : Ref}

/-- **Negation** finds its operand in the table. -/
theorem neg (h : s.Has r) : Repeats s (neg r) := by
  refine .of_valid fun hs => .of_idle
    (fun u hsu => yields_neg (h.denotes.mono hs hsu)) fun _ u _ hgu => ?_
  cases hr : r.isConstant with
  | true => rcases Ref.isConstant_iff.1 hr with rfl | rfl <;> rfl
  | false =>
    have hknown : r ∈ (Diagram.neg r s).2.negated := by
      unfold Diagram.neg
      rw [negWithin_succ hr]
      cases hq : s.negated[r]? with
      | some q =>
        obtain ⟨hmem, -⟩ := Std.HashMap.getElem?_eq_some_iff.1 hq
        exact hmem
      | none => exact Std.HashMap.mem_insert_self
    unfold Diagram.neg
    rw [negWithin_succ hr, Std.HashMap.getElem?_eq_some_getElem (hgu.negated r hknown)]

/-- **A connective** finds its operands in the table. -/
theorem combine (op : Connective) (ha : s.Has a) (hb : s.Has b) :
    Repeats s (combine op a b) := by
  refine .of_valid fun hs => .of_idle
    (fun u hsu => yields_combine op (ha.denotes.mono hs hsu) (hb.denotes.mono hs hsu))
    fun _ u _ hgu => ?_
  unfold Diagram.combine at hgu ⊢
  by_cases habs : a = op.absorbing ∨ b = op.absorbing
  · rw [combineWithin, if_pos habs]
    rfl
  by_cases hsecond : a = op.neutral ∨ a = b
  · rw [combineWithin, if_neg habs, if_pos hsecond]
    rfl
  by_cases hfirst : b = op.neutral
  · rw [combineWithin, if_neg habs, if_neg hsecond, if_pos hfirst]
    rfl
  have hca : a.isConstant = false :=
    Connective.isConstant_eq_false (not_or.1 habs).1 (not_or.1 hsecond).1
  have hcb : b.isConstant = false := Connective.isConstant_eq_false (not_or.1 habs).2 hfirst
  have hab : a ≠ b := (not_or.1 hsecond).2
  have hknown : op.key a b ∈ (combineWithin op (a.id + b.id + 1) a b s).2.combined := by
    rw [combineWithin_succ hca hcb hab]
    cases hq : s.combined[op.key a b]? with
    | some q =>
      obtain ⟨hmem, -⟩ := Std.HashMap.getElem?_eq_some_iff.1 hq
      exact hmem
    | none => exact Std.HashMap.mem_insert_self
  rw [combineWithin_succ hca hcb hab,
    Std.HashMap.getElem?_eq_some_getElem (hgu.combined _ hknown)]

theorem implies (ha : s.Has a) (hb : s.Has b) : Repeats s (implies a b) :=
  .bind (yields_neg ha.denotes) (.neg ha) (fun notA => .combineWithin .disj _ notA b)
    fun _ _ hst _ hn => .combine .disj hn.has (hb.mono hst)

theorem combineFrom (op : Connective) {acc : Ref} {rs : List Ref} (hacc : s.Has acc)
    (hrs : ∀ r ∈ rs, s.Has r) : Repeats s (combineFrom op acc rs) := by
  induction rs generalizing s acc with
  | nil => exact .pure acc
  | cons r rs ih =>
    obtain ⟨hr, hrs⟩ := List.forall_mem_cons.1 hrs
    refine .bind (yields_combine op hacc.denotes hr.denotes) (.combine op hacc hr)
      (fun next => .ite (.pure next) (.combineFrom op next rs)) fun next t hst _ hnext => ?_
    exact .ite (fun _ => .pure next) fun _ => ih hnext.has fun r hr => (hrs r hr).mono hst

/-! ### Cubes -/

theorem literalAnd (i : Nat) (b : Bool) (rest : Ref) : Repeats s (literalAnd i b rest) :=
  .ite (fun _ => .ask i .bot rest) fun _ => .ask i rest .bot

theorem cube {path : List (Nat × Bool)} (hasc : Ascending path)
    (hlt : ∀ q ∈ path, q.1 < s.variableCount) : Repeats s (cube path) := by
  induction path with
  | nil => exact .pure _
  | cons q rest ih =>
    have hrest := (List.pairwise_cons.1 hasc).2
    have hrestlt := fun p hp => hlt p (List.mem_cons_of_mem q hp)
    exact .bind (yields_cube hrest hrestlt) (ih hrest hrestlt)
      (fun below => .literalAnd q.1 q.2 below) fun below _ _ _ _ => .literalAnd q.1 q.2 below

end Repeats

/-- The least path of a diagram stays as it is. -/
theorem Store.Valid.leastPath_of_le {s t : Store} {r : Ref} (hs : s.Valid) (hst : s ≤ t)
    (h : s.Has r) : t.leastPath r = s.leastPath r := by
  suffices H : ∀ n r, s.Has r → t.leastPathWithin n r = s.leastPathWithin n r from H _ _ h
  intro n
  induction n with
  | zero => intro r _; rfl
  | succ n ih =>
    intro r h
    unfold leastPathWithin
    cases hr : r.isConstant with
    | true => rfl
    | false =>
      have hlow := ih _ (hs.has_low h hr)
      have hhigh := ih _ (hs.has_high h hr)
      simp only [hst.node_eq r h, hlow, hhigh]

namespace Repeats

variable {s : Store} {r : Ref}

/-- **A path cube** is built again from the same path. -/
theorem pathCube (h : s.Has r) : Repeats s (pathCube r) := by
  refine .ite (fun _ => .pure _) fun hr hs u hu hgu => ?_
  have hgrow : s.GrowsTo u := .trans (Grows.cube _ s) hgu
  have hcube : Repeats s (Diagram.cube (s.leastPath r)) :=
    .cube (hs.ascending_leastPath h hr) (hs.leastPath_lt h hr)
  show Diagram.cube (u.leastPath r) u = _
  rw [hs.leastPath_of_le hgrow.le h]
  exact hcube hs u hu hgu

end Repeats

/-- **A least complete model** is built again as long as no further variable has been named. -/
theorem Store.Valid.leastModel_again {s u : Store} {r : Ref} (hs : s.Valid) (h : s.Has r)
    (hu : u.Valid) (hgu : (leastModel r s).2.GrowsTo u)
    (hcount : u.variableCount = s.variableCount) : leastModel r u = ((leastModel r s).1, u) := by
  by_cases hr : r = .bot
  · rw [leastModel, if_pos hr]
    rfl
  let path := completePath (s.leastPath r) 0 s.variableCount
  have hrun : leastModel r s = cube path s := by
    rw [leastModel, if_neg hr]
    rfl
  have hpath : path = (List.range' 0 s.variableCount).map fun i =>
      (i, (assignmentOf (s.leastPath r)).fill i) :=
    completePath_eq (hs.ascending_leastPath h hr) 0 s.variableCount fun _ _ => Nat.zero_le _
  have hagain : leastModel r u = cube path u := by
    have hsu : s ≤ u := (Grows.run (.leastModel r) s).le.trans hgu.le
    rw [leastModel, if_neg hr, get_bind, hs.leastPath_of_le hsu h, hcount]
  rw [hrun] at hgu ⊢
  rw [hagain]
  exact Repeats.cube (hpath ▸ ascending_below _ _) (hpath ▸ lt_of_mem_below le_rfl _) hs u hu hgu

/-! ### Operations -/

/-- It is the same operation, where the two operands of a connective may have been swapped. -/
inductive Operation.SameAs : Operation → Operation → Prop
  | refl (o : Operation) : SameAs o o
  | conj (a b : Ref) : SameAs (.conj a b) (.conj b a)
  | disj (a b : Ref) : SameAs (.disj a b) (.disj b a)

/-- An operation other than the least complete model repeats. -/
theorem Operation.repeats_run {s : Store} {o : Operation} (ho : ∀ r ∈ o.operands, s.Has r)
    (hmodel : ∀ a, o ≠ .leastModel a) : Repeats s o.run := by
  cases o with
  | positive i => exact .positive i
  | negative i => exact .negative i
  | neg a => exact .neg (ho a (by simp [operands]))
  | conj a b => exact .combine .conj (ho a (by simp [operands])) (ho b (by simp [operands]))
  | disj a b => exact .combine .disj (ho a (by simp [operands])) (ho b (by simp [operands]))
  | implies a b => exact .implies (ho a (by simp [operands])) (ho b (by simp [operands]))
  | conjAll rs => exact .of_valid fun hs => .combineFrom .conj hs.has_top ho
  | disjAll rs => exact .of_valid fun hs => .combineFrom .disj hs.has_bot ho
  | pathCube a => exact .pathCube (ho a (by simp [operands]))
  | leastModel a => exact absurd rfl (hmodel a)

/-- **The same operation again** gives the same diagram, and leaves the store as it is. -/
theorem Store.Valid.run_again {s u : Store} {o o' : Operation} (hs : s.Valid)
    (ho : ∀ r ∈ o.operands, s.Has r) (hu : u.Valid) (hgu : (o.run s).2.GrowsTo u)
    (hsame : o'.SameAs o)
    (hcount : ∀ a, o = .leastModel a → u.variableCount = s.variableCount) :
    o'.run u = ((o.run s).1, u) := by
  have hsu : s ≤ u := (Grows.run o s).le.trans hgu.le
  -- so much for the same operation with its operands in the same order
  have hrun : o.run u = ((o.run s).1, u) := by
    by_cases hmodel : ∃ a, o = .leastModel a
    · obtain ⟨a, rfl⟩ := hmodel
      exact hs.leastModel_again (ho a (by simp [Operation.operands])) hu hgu (hcount a rfl)
    · exact Operation.repeats_run ho (not_exists.1 hmodel) hs u hu hgu
  cases hsame with
  | refl => exact hrun
  | conj a b =>
    have ha : u.Has a := (ho a (by simp [Operation.operands])).mono hsu
    have hb : u.Has b := (ho b (by simp [Operation.operands])).mono hsu
    exact (hu.combine_comm .conj ha hb).trans hrun
  | disj a b =>
    have ha : u.Has a := (ho a (by simp [Operation.operands])).mono hsu
    have hb : u.Has b := (ho b (by simp [Operation.operands])).mono hsu
    exact (hu.combine_comm .disj ha hb).trans hrun

/-- **Another least model** comes out once a further variable has been named: it fixes that one as
well. -/
theorem Store.Reachable.leastModel_ne {s u : Store} {r : Ref} (hs : s.Reachable) (h : s.Has r)
    (hr : r ≠ .bot) (hu : u.Reachable) (hsu : (leastModel r s).2 ≤ u)
    (hcount : s.variableCount < u.variableCount) : (leastModel r u).1 ≠ (leastModel r s).1 := by
  obtain ⟨ht, hst, w, hcube, -⟩ := yields_leastModel h.denotes hr hs.valid
  have hlater := (h.mono (hst.trans hsu)).denotes
  obtain ⟨-, huu, w', hcube', -⟩ := yields_leastModel hlater hr hu.valid
  intro heq
  have hold := hcube.mono ht (hsu.trans huu)
  -- the old cube leaves the further variable open
  let v : Valuation := w.set s.variableCount !w' s.variableCount
  have htrue : (leastModel r u).2.eval (leastModel r s).1 v = true :=
    (hold.eval_iff v).2 (Assignment.admits_below_iff.2 fun i hi => Valuation.set_of_ne (by omega))
  rw [← heq, hcube'.eval_iff, Assignment.admits_below_iff] at htrue
  have hset : (!w' s.variableCount) = w' s.variableCount :=
    (Valuation.set_self w _ _).symm.trans (htrue _ hcount)
  exact Bool.not_ne_self _ hset

/-! ### Sessions -/

namespace Session

theorem growsTo_serve (x : Session) (q : Request) : x.store.GrowsTo (x.serve q).store := by
  cases q with
  | build o => exact Grows.run o x.store
  | separates a b => exact .refl x.store
  | eval a v => exact .refl x.store

theorem growsTo_serveAll (x : Session) (qs : List Request) :
    x.store.GrowsTo (x.serveAll qs).store := by
  induction qs generalizing x with
  | nil => exact .refl x.store
  | cons q qs ih => exact (x.growsTo_serve q).trans (ih (x.serve q))

/-- **What has been asked for once is free**: in every session, an operation that is asked for again
after any other requests gives the same diagram and changes nothing in the store, so that it has no
node more than before. The operands of a connective may come in either order. For the least complete
model no further variable may have been named since. -/
theorem asked_again (past between : List Request) {o o' : Operation}
    (h : fresh.Allows (past ++ .build o :: between)) (hsame : o'.SameAs o)
    (hcount : ∀ a, o = .leastModel a →
      (fresh.serveAll (past ++ .build o :: between)).store.variableCount =
        (fresh.serveAll past).store.variableCount) :
    o'.run (fresh.serveAll (past ++ .build o :: between)).store =
      ((o.run (fresh.serveAll past).store).1,
        (fresh.serveAll (past ++ .build o :: between)).store) := by
  obtain ⟨hpast, hrest⟩ := allows_append.1 h
  obtain ⟨hbefore, -⟩ := sound_fresh.serveAll hpast
  obtain ⟨hafter, -⟩ := hbefore.serveAll hrest
  rw [serveAll_append] at hcount ⊢
  have hgrows : (o.run (fresh.serveAll past).store).2.GrowsTo
      ((fresh.serveAll past).serveAll (.build o :: between)).store :=
    growsTo_serveAll ((fresh.serveAll past).serve (.build o)) between
  exact hbefore.reachable.valid.run_again (fun r hr => hbefore.has r (hrest.1 r hr))
    hafter.reachable.valid hgrows hsame hcount

/-- The least model of the second variable is there again after the first one has been named, since
that is no further variable; and the conjunction of the two is there in both orders. -/
theorem asked_again_twoVariables :
    let second := positive 1 .empty
    let first := positive 0 second.2
    let named : List Request := [.build (.positive 1)]
    let model : Operation := .leastModel second.1
    let both := named ++ [.build (.positive 0)]
    let after := (fresh.serveAll (named ++ .build model :: [.build (.positive 0)])).store
    let conjoined := (fresh.serveAll (both ++ [.build (.conj first.1 second.1)])).store
    model.run after = ((model.run (fresh.serveAll named).store).1, after) ∧
      conj second.1 first.1 conjoined =
        ((conj first.1 second.1 (fresh.serveAll both).store).1, conjoined) := by
  intro second first named model both after conjoined
  have hcount : after.variableCount = (fresh.serveAll named).store.variableCount := by
    show (positive 0 (leastModel second.1 second.2).2).2.variableCount = second.2.variableCount
    rw [variableCount_positive, variableCount_leastModel, variableCount_positive]
    rfl
  have hmodel : fresh.Allows (named ++ .build model :: [.build (.positive 0)]) :=
    ⟨nofun, fun r hr => List.mem_singleton.1 hr ▸ List.mem_cons_self, nofun, trivial⟩
  have hconj : fresh.Allows (both ++ [.build (.conj first.1 second.1)]) := by
    refine ⟨nofun, nofun, fun r hr => ?_, trivial⟩
    show r ∈ [first.1, second.1, .bot, .top]
    have hr : r ∈ [first.1, second.1] := hr
    exact List.mem_append_left [.bot, .top] hr
  exact ⟨asked_again named _ hmodel (.refl model) fun _ _ => hcount,
    asked_again both [] hconj (.conj second.1 first.1) nofun⟩

end Session
end Diagram
end RouteSolver
