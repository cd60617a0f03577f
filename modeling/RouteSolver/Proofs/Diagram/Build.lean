/-
# Computations that build diagrams

A later store only adds nodes, `s ≤ t`, so what a reference denotes stays as it is
(`Store.Denotes.mono`). `Yields s m post` says that the computation `m`, run in a valid store `s`,
leads to a later valid store and to a result of which `post` holds. Its rules follow the way a
computation is put together; from `yields_ask` on, every operation has one such statement, and no
proof about a caller opens the callee.
-/

import RouteSolver.Proofs.Diagram.Store
import Mathlib.Data.List.Forall2
import Mathlib.Order.Defs.PartialOrder

namespace RouteSolver
namespace Diagram

namespace Store

variable {s t u : Store} {r a b : Ref} {f g : Valuation → Bool}

/-! ### Later stores -/

/-- The store `t` holds everything that `s` does. -/
structure Extends (s t : Store) : Prop where
  size_le : s.size ≤ t.size
  node_eq : ∀ r, s.Has r → t.node r = s.node r
  variableCount_le : s.variableCount ≤ t.variableCount

instance : Preorder Store where
  le := Extends
  le_refl _ := ⟨Nat.le_refl _, fun _ _ => rfl, Nat.le_refl _⟩
  le_trans _ _ _ h k :=
    ⟨Nat.le_trans h.size_le k.size_le,
      fun r hr => (k.node_eq r (Nat.lt_of_lt_of_le hr h.size_le)).trans (h.node_eq r hr),
      Nat.le_trans h.variableCount_le k.variableCount_le⟩

theorem Has.mono (h : s.Has r) (hst : s ≤ t) : t.Has r := Nat.lt_of_lt_of_le h hst.size_le

theorem StartsAt.of_le {i : Nat} (hi : s.StartsAt i r) (h : s.Has r) (hst : s ≤ t) :
    t.StartsAt i r := fun hr => hst.node_eq r h ▸ hi hr

/-- **Later nodes change no value.** -/
theorem Valid.eval_of_le (hs : s.Valid) (hst : s ≤ t) (h : s.Has r) (v : Valuation) :
    t.eval r v = s.eval r v := by
  suffices H : ∀ n r, s.Has r → t.evalWithin v n r = s.evalWithin v n r from H _ _ h
  intro n
  induction n with
  | zero => intro r _; rfl
  | succ n ih =>
    intro r h
    by_cases hr : r.isConstant = true
    · rw [evalWithin_of_isConstant _ _ _ hr, evalWithin_of_isConstant _ _ _ hr]
    · have hr' := Bool.eq_false_iff.2 hr
      rw [evalWithin, if_neg hr, evalWithin, if_neg hr, hst.node_eq r h]
      dsimp only
      split
      · exact ih _ (hs.has_high h hr')
      · exact ih _ (hs.has_low h hr')

theorem Proper.mono (hs : s.Valid) (hst : s ≤ t) (h : s.Has r) (hr : r.isConstant = false) :
    t.Proper r := by
  have hp := hs.proper r h hr
  have hn := hst.node_eq r h
  exact {
    low_lt := hn ▸ hp.low_lt
    high_lt := hn ▸ hp.high_lt
    low_ne_high := hn ▸ hp.low_ne_high
    low_startsAt := hn ▸ hp.low_startsAt.of_le (hs.has_low h hr) hst
    high_startsAt := hn ▸ hp.high_startsAt.of_le (hs.has_high h hr) hst
    level_lt := hn ▸ Nat.lt_of_lt_of_le hp.level_lt hst.variableCount_le }

/-! ### What a reference denotes -/

/-- The reference is there and denotes the function. -/
structure Denotes (s : Store) (r : Ref) (f : Valuation → Bool) : Prop where
  has : s.Has r
  eval_eq : ∀ v, s.eval r v = f v

theorem Has.denotes (h : s.Has r) : s.Denotes r (s.eval r) := ⟨h, fun _ => rfl⟩

theorem Valid.denotes_bot (hs : s.Valid) : s.Denotes .bot fun _ => false :=
  ⟨hs.has_bot, fun _ => rfl⟩

theorem Valid.denotes_top (hs : s.Valid) : s.Denotes .top fun _ => true :=
  ⟨hs.has_top, fun _ => rfl⟩

theorem Denotes.mono (h : s.Denotes r f) (hs : s.Valid) (hst : s ≤ t) : t.Denotes r f :=
  ⟨h.has.mono hst, fun v => (hs.eval_of_le hst h.has v).trans (h.eval_eq v)⟩

theorem Denotes.congr (h : s.Denotes r f) (hfg : ∀ v, f v = g v) : s.Denotes r g :=
  ⟨h.has, fun v => (h.eval_eq v).trans (hfg v)⟩

theorem Denotes.startsAt (h : s.Denotes r f) (hs : s.Valid) {i : Nat} (hf : DependsFrom i f) :
    s.StartsAt i r :=
  hs.startsAt_of_dependsFrom h.has (funext h.eval_eq ▸ hf)

/-- **A diagram is satisfiable exactly when some valuation satisfies its function.** -/
theorem Denotes.isSatisfiable_iff (h : s.Denotes r f) (hs : s.Valid) :
    r.isSatisfiable = true ↔ ∃ v, f v = true := by
  rw [Ref.isSatisfiable, decide_eq_true_iff]
  constructor
  · intro hr
    obtain ⟨v, hv⟩ := hs.exists_eval_eq_true h.has hr
    exact ⟨v, (h.eval_eq v).symm.trans hv⟩
  · rintro ⟨v, hv⟩ rfl
    rw [← h.eval_eq, eval_bot] at hv
    exact Bool.noConfusion hv

/-- Each reference of a list denotes the function in its place. -/
abbrev DenoteAll (s : Store) (rs : List Ref) (fs : List (Valuation → Bool)) : Prop :=
  List.Forall₂ s.Denotes rs fs

theorem DenoteAll.mono {rs : List Ref} {fs : List (Valuation → Bool)} (h : s.DenoteAll rs fs)
    (hs : s.Valid) (hst : s ≤ t) : t.DenoteAll rs fs :=
  h.imp fun _ _ hd => hd.mono hs hst

/-- The store without any node but the constants is valid. -/
theorem valid_empty : Store.empty.Valid where
  two_le_size := Nat.le_refl _
  proper r h hr := by
    have h2 := Ref.two_le_id hr
    exact absurd (Nat.lt_of_lt_of_le h h2) (Nat.lt_irrefl _)
  index_iff n r := by
    constructor
    · intro h
      rw [show Store.empty.index = ∅ from rfl, Std.HashMap.getElem?_empty] at h
      nomatch h
    · rintro ⟨h, hr, -⟩
      have h2 := Ref.two_le_id hr
      exact absurd (Nat.lt_of_lt_of_le h h2) (Nat.lt_irrefl _)
  negated r q h := by
    rw [show Store.empty.negated = ∅ from rfl, Std.HashMap.getElem?_empty] at h
    nomatch h
  combined op a b q h := by
    rw [show Store.empty.combined = ∅ from rfl, Std.HashMap.getElem?_empty] at h
    nomatch h

end Store

/-! ### Computations -/

/-- Run in the store `s`, if that is valid, the computation leads to a later valid store, and to a
result of which `post` holds there. -/
def Yields {α : Type} (s : Store) (m : Build α) (post : α → Store → Prop) : Prop :=
  s.Valid → (m s).2.Valid ∧ s ≤ (m s).2 ∧ post (m s).1 (m s).2

namespace Yields

variable {α β : Type} {s : Store} {m : Build α} {k : α → Build β} {p q : α → Store → Prop}
  {post : β → Store → Prop}

/-- The store that a computation starts from may be taken to be valid. -/
theorem of_valid (h : s.Valid → Yields s m p) : Yields s m p := fun hs => h hs hs

theorem post_run (h : Yields s m p) (hs : s.Valid) : p (m.run s).1 (m.run s).2 := (h hs).2.2

theorem of_run (h : Yields s m p) (hs : s.Valid) {a : α} {t : Store} (hrun : m.run s = (a, t)) :
    t.Valid ∧ s ≤ t ∧ p a t := by
  have h := h hs
  rwa [show m s = (a, t) from hrun] at h

/-- What is known of the result of a run in `s` may be used of what is yielded. -/
theorem result (h : Yields s m p) : Yields s m fun a t => a = (m.run s).1 ∧ p a t :=
  fun hs => ⟨(h hs).1, (h hs).2.1, rfl, (h hs).2.2⟩

theorem pure {a : α} (h : s.Valid → p a s) : Yields s (Pure.pure a) p :=
  fun hs => ⟨hs, le_rfl, h hs⟩

theorem bind (hm : Yields s m p)
    (hk : ∀ a t, s ≤ t → t.Valid → p a t → Yields t (k a) post) : Yields s (m >>= k) post := by
  intro hs
  obtain ⟨ht, hst, hp⟩ := hm hs
  obtain ⟨hu, htu, hq⟩ := hk _ _ hst ht hp ht
  exact ⟨hu, hst.trans htu, hq⟩

theorem mono (hm : Yields s m p) (h : ∀ a t, s ≤ t → t.Valid → p a t → q a t) : Yields s m q := by
  intro hs
  obtain ⟨ht, hst, hp⟩ := hm hs
  exact ⟨ht, hst, h _ _ hst ht hp⟩

theorem get {k : Store → Build β} (h : s.Valid → Yields s (k s) post) :
    Yields s (MonadState.get >>= k) post := fun hs => h hs hs

theorem map {f : α → β} (hm : Yields s m fun a t => post (f a) t) : Yields s (f <$> m) post := hm

/-- Either of two computations, and then the same. -/
theorem ite_bind {c : Prop} [Decidable c] {m' : Build α} (hm : c → Yields s m p)
    (hm' : ¬c → Yields s m' p) (hk : ∀ a t, s ≤ t → t.Valid → p a t → Yields t (k a) post) :
    Yields s (if c then m >>= k else m' >>= k) post := by
  split
  · rename_i h
    exact (hm h).bind hk
  · rename_i h
    exact (hm' h).bind hk

/-- One computation for each member of a list, where later ones keep what earlier ones yield. -/
theorem mapM {γ : Type} {f : γ → Build β} {p : γ → β → Store → Prop} {xs : List γ}
    (hf : ∀ x ∈ xs, ∀ t, s ≤ t → Yields t (f x) (p x))
    (hp : ∀ x b t u, t.Valid → t ≤ u → p x b t → p x b u) :
    Yields s (xs.mapM f) fun bs t => List.Forall₂ (fun x b => p x b t) xs bs := by
  induction xs generalizing s with
  | nil => exact .pure fun _ => .nil
  | cons x xs ih =>
    rw [List.mapM_cons]
    refine (hf x List.mem_cons_self s le_rfl).bind fun b t hst ht hb => ?_
    refine (ih fun x hx u hu => hf x (List.mem_cons_of_mem _ hx) u (hst.trans hu)).bind
      fun bs u htu _ hbs => ?_
    exact .pure fun _ => .cons (hp x b t u ht htu hb) hbs

end Yields

/-! ### Nodes and literals -/

namespace Store

variable {s t : Store} {r low high : Ref} {f g : Valuation → Bool} {i : Nat}

/-- The store after a new node has been written. -/
def withNode (s : Store) (n : Node) : Store :=
  { s with nodes := s.nodes.push n, index := s.index.insert n ⟨s.nodes.size⟩ }

theorem node_withNode_of_has {n : Node} (h : s.Has r) : (s.withNode n).node r = s.node r := by
  rw [node, node, withNode]
  dsimp only
  rw [Array.getElem?_push_lt h, Array.getElem?_eq_getElem h]

theorem node_withNode_self (s : Store) (n : Node) : (s.withNode n).node ⟨s.size⟩ = n := by
  rw [node, withNode]
  dsimp only
  rw [size, Array.getElem?_push_size, Option.getD_some]

theorem le_withNode (s : Store) (n : Node) : s ≤ s.withNode n where
  size_le := by
    rw [size, size, withNode, Array.size_push]
    exact Nat.le_succ _
  node_eq _ h := node_withNode_of_has h
  variableCount_le := Nat.le_refl _

theorem has_withNode_iff {n : Node} : (s.withNode n).Has r ↔ s.Has r ∨ r = ⟨s.size⟩ := by
  obtain ⟨k⟩ := r
  rw [Has, Has, size, withNode, Array.size_push, Ref.mk.injEq]
  exact Nat.lt_succ_iff_lt_or_eq

/-- What is added keeps the store valid if new nodes are proper, the index still finds each node,
and the tables are right. -/
theorem Valid.of_extends (hs : s.Valid) (hst : s ≤ t)
    (hproper : ∀ r, t.Has r → r.isConstant = false → s.Has r ∨ t.Proper r)
    (hindex : ∀ (n : Node) (r : Ref),
      t.index[n]? = some r ↔ t.Has r ∧ r.isConstant = false ∧ t.node r = n)
    (hnegated : ∀ r q : Ref, t.negated[r]? = some q →
      s.Has r ∧ s.Has q ∧ ∀ v, s.eval q v = !s.eval r v)
    (hcombined : ∀ (op : Connective) (a b q : Ref), t.combined[(op, a, b)]? = some q →
      s.Has a ∧ s.Has b ∧ s.Has q ∧ ∀ v, s.eval q v = op.apply (s.eval a v) (s.eval b v)) :
    t.Valid := by
  have heval : ∀ {r}, s.Has r → ∀ v, t.eval r v = s.eval r v := fun h v => hs.eval_of_le hst h v
  refine {
    two_le_size := Nat.le_trans hs.two_le_size hst.size_le
    proper := fun r h hr => (hproper r h hr).elim (fun h => Proper.mono hs hst h hr) id
    index_iff := hindex
    negated := fun r q hq => ?_
    combined := fun op a b q hq => ?_ }
  · obtain ⟨hr, hq, hv⟩ := hnegated r q hq
    exact ⟨hr.mono hst, hq.mono hst, fun v => by rw [heval hq, heval hr, hv]⟩
  · obtain ⟨ha, hb, hq, hv⟩ := hcombined op a b q hq
    exact ⟨ha.mono hst, hb.mono hst, hq.mono hst,
      fun v => by rw [heval hq, heval ha, heval hb, hv]⟩

/-- Other tables keep the store valid if their results are right. -/
theorem Valid.of_tables (hs : s.Valid) (hst : s ≤ t) (hsize : t.size = s.size)
    (hindex : t.index = s.index)
    (hnegated : ∀ r q : Ref, t.negated[r]? = some q →
      s.Has r ∧ s.Has q ∧ ∀ v, s.eval q v = !s.eval r v)
    (hcombined : ∀ (op : Connective) (a b q : Ref), t.combined[(op, a, b)]? = some q →
      s.Has a ∧ s.Has b ∧ s.Has q ∧ ∀ v, s.eval q v = op.apply (s.eval a v) (s.eval b v)) :
    t.Valid := by
  have hhas : ∀ {r}, t.Has r ↔ s.Has r := by intro r; rw [Has, Has, hsize]
  refine hs.of_extends hst (fun r h _ => .inl (hhas.1 h)) (fun n r => ?_) hnegated hcombined
  rw [hindex, hs.index_iff, hhas]
  exact and_congr_right fun h => by rw [hst.node_eq r h]

/-- **A new node keeps the store valid** if its children are older, different, and ask for later
variables, and if there is no such node yet. -/
theorem Valid.withNode (hs : s.Valid) (hi : i < s.variableCount) (hl : s.Has low)
    (hh : s.Has high) (hne : low ≠ high) (hlow : s.StartsAt (i + 1) low)
    (hhigh : s.StartsAt (i + 1) high) (hnew : s.index[(⟨i, low, high⟩ : Node)]? = none) :
    (s.withNode ⟨i, low, high⟩).Valid := by
  set t := s.withNode ⟨i, low, high⟩ with ht
  have hst : s ≤ t := le_withNode s _
  have hself : t.node ⟨s.size⟩ = ⟨i, low, high⟩ := node_withNode_self s _
  have hbig : (⟨s.size⟩ : Ref).isConstant = false :=
    decide_eq_false (by have := hs.two_le_size; dsimp only; omega)
  refine hs.of_extends hst (fun r h hr => ?_) (fun n r => ?_) (fun r q => hs.negated r q)
    fun op a b q => hs.combined op a b q
  · rcases has_withNode_iff.1 h with h | rfl
    · exact .inl h
    · exact .inr {
        low_lt := by rw [hself]; exact hl
        high_lt := by rw [hself]; exact hh
        low_ne_high := by rw [hself]; exact hne
        low_startsAt := by rw [hself]; exact hlow.of_le hl hst
        high_startsAt := by rw [hself]; exact hhigh.of_le hh hst
        level_lt := by rw [hself]; exact hi }
  · rw [show t.index = s.index.insert ⟨i, low, high⟩ ⟨s.size⟩ from rfl,
      Std.HashMap.getElem?_insert]
    by_cases hn : (⟨i, low, high⟩ : Node) = n
    · subst hn
      rw [if_pos (beq_self_eq_true _), Option.some.injEq]
      constructor
      · rintro rfl
        exact ⟨has_withNode_iff.2 (.inr rfl), hbig, hself⟩
      · rintro ⟨h, hr, hn⟩
        rcases has_withNode_iff.1 h with h | rfl
        · rw [hst.node_eq r h] at hn
          exact absurd (hnew.symm.trans ((hs.index_iff _ _).2 ⟨h, hr, hn⟩)) nofun
        · rfl
    · rw [if_neg (by simpa using hn), hs.index_iff]
      constructor
      · rintro ⟨h, hr, hrn⟩
        exact ⟨h.mono hst, hr, (hst.node_eq r h).trans hrn⟩
      · rintro ⟨h, hr, hrn⟩
        rcases has_withNode_iff.1 h with h | rfl
        · exact ⟨h, hr, (hst.node_eq r h).symm.trans hrn⟩
        · exact absurd (hself.symm.trans hrn) hn

end Store

section
variable {s : Store} {i : Nat} {low high r : Ref} {f g : Valuation → Bool}

/-- A node that is there is found. -/
theorem ask_known (hne : low ≠ high) (h : s.index[(⟨i, low, high⟩ : Node)]? = some r) :
    ask i low high s = (r, s) := by
  unfold ask
  rw [if_neg hne]
  dsimp only
  rw [h]

/-- A node that is not there yet is written. -/
theorem ask_new (hne : low ≠ high) (h : s.index[(⟨i, low, high⟩ : Node)]? = none) :
    ask i low high s = (⟨s.size⟩, s.withNode ⟨i, low, high⟩) := by
  unfold ask
  rw [if_neg hne]
  dsimp only
  rw [h]
  rfl

/-- **Asking for a variable** denotes the choice between what the two children denote. -/
theorem yields_ask (hi : i < s.variableCount) (hlow : s.Denotes low f) (hhigh : s.Denotes high g)
    (hf : DependsFrom (i + 1) f) (hg : DependsFrom (i + 1) g) :
    Yields s (ask i low high) fun r t => t.Denotes r fun v => if v i then g v else f v := by
  intro hs
  -- a reference to the node denotes the choice, in every later store
  have key : ∀ {t : Store} {r : Ref}, s ≤ t → t.Valid → t.Has r → r.isConstant = false →
      t.node r = ⟨i, low, high⟩ → t.Denotes r fun v => if v i then g v else f v := by
    intro t r hst ht h hr hn
    refine ⟨h, fun v => ?_⟩
    rw [ht.eval_node h hr, hn, (hlow.mono hs hst).eval_eq, (hhigh.mono hs hst).eval_eq]
  by_cases heq : low = high
  · have hfg : ∀ v, f v = g v := fun v =>
      (hlow.eval_eq v).symm.trans ((congrArg (s.eval · v) heq).trans (hhigh.eval_eq v))
    rw [ask, if_pos heq]
    refine ⟨hs, le_rfl, hlow.has, fun v => ?_⟩
    rw [hlow.eval_eq, ← hfg v]
    exact (ite_self _).symm
  cases hnode : s.index[(⟨i, low, high⟩ : Node)]? with
  | some r =>
    obtain ⟨h, hc, hn⟩ := (hs.index_iff _ _).1 hnode
    rw [ask_known heq hnode]
    exact ⟨hs, le_rfl, key le_rfl hs h hc hn⟩
  | none =>
    have ht := hs.withNode hi hlow.has hhigh.has heq (hlow.startsAt hs hf) (hhigh.startsAt hs hg)
      hnode
    rw [ask_new heq hnode]
    refine ⟨ht, s.le_withNode _, key (s.le_withNode _) ht ?_ ?_ (s.node_withNode_self _)⟩
    · exact Store.has_withNode_iff.2 (.inr rfl)
    · exact decide_eq_false (Nat.not_lt.2 hs.two_le_size)

/-- Naming a variable only raises the number of named variables. -/
theorem yields_name (i : Nat) : Yields s (name i) fun _ t => i < t.variableCount := by
  intro hs
  have hst : s ≤ (name i s).2 := ⟨Nat.le_refl _, fun _ _ => rfl, Nat.le_max_left _ _⟩
  exact ⟨hs.of_tables hst rfl rfl (fun r q => hs.negated r q) fun op a b q => hs.combined op a b q,
    hst, Nat.lt_of_lt_of_le (Nat.lt_succ_self i) (Nat.le_max_right _ _)⟩

theorem dependsFrom_const (i : Nat) (b : Bool) : DependsFrom i fun _ => b := fun _ _ _ => rfl

/-- The positive literal denotes the value of its variable, which is named from then on. -/
theorem yields_positive (i : Nat) :
    Yields s (positive i) fun r t => (t.Denotes r fun v => v i) ∧ i < t.variableCount := by
  refine (yields_name i).bind fun _ t hst ht hi => ?_
  refine (yields_ask hi ht.denotes_bot ht.denotes_top (dependsFrom_const _ _)
    (dependsFrom_const _ _)).mono fun r u htu _ hr => ⟨hr.congr fun v => ?_, ?_⟩
  · cases v i <;> rfl
  · exact Nat.lt_of_lt_of_le hi htu.variableCount_le

/-- **A variable that has a diagram** is found again, and nothing is added. -/
theorem Store.Valid.positive_eq (hs : s.Valid) (hi : i < s.variableCount)
    (hr : s.Denotes r fun v => v i) : (positive i).run s = (r, s) := by
  have hname : (name i s).2 = s := by
    change { s with variableCount := max s.variableCount (i + 1) } = s
    rw [Nat.max_eq_left hi]
  change ask i .bot .top (name i s).2 = (r, s)
  rw [hname]
  obtain ⟨ht, hst, hq⟩ := yields_ask hi hs.denotes_bot hs.denotes_top (dependsFrom_const _ _)
    (dependsFrom_const _ _) hs
  have hsame : (ask i .bot .top s).1 = r := by
    refine ht.eq_of_eval_eq hq.has (hr.has.mono hst) fun v => ?_
    rw [hq.eval_eq, (hr.mono hs hst).eval_eq]
    cases v i <;> rfl
  have hne : Ref.bot ≠ .top := by decide
  cases hnode : s.index[(⟨i, .bot, .top⟩ : Node)]? with
  | some q =>
    rw [ask_known hne hnode] at hsame ⊢
    rw [← hsame]
  | none =>
    -- a new node would be younger than the diagram that is there
    rw [ask_new hne hnode] at hsame
    exact absurd (hsame ▸ hr.has) (Nat.lt_irrefl _)

/-- Literals for some variables denote their values, and all are named from then on. -/
theorem yields_mapM_positive (is : List Nat) :
    Yields s (is.mapM positive) fun rs t =>
      t.DenoteAll rs (is.map fun i v => v i) ∧ ∀ i ∈ is, i < t.variableCount := by
  refine (Yields.mapM (fun i _ _ _ => yields_positive i) fun i r t u ht htu h =>
    ⟨h.1.mono ht htu, Nat.lt_of_lt_of_le h.2 htu.variableCount_le⟩).mono fun rs t _ _ h => ?_
  induction h with
  | nil => exact ⟨.nil, fun i hi => absurd hi List.not_mem_nil⟩
  | cons hr _ ih => exact ⟨.cons hr.1 ih.1, List.forall_mem_cons.2 ⟨hr.2, ih.2⟩⟩

/-- The negative literal denotes the opposite of the value of its variable. -/
theorem yields_negative (i : Nat) :
    Yields s (negative i) fun r t => (t.Denotes r fun v => !v i) ∧ i < t.variableCount := by
  refine (yields_name i).bind fun _ t hst ht hi => ?_
  refine (yields_ask hi ht.denotes_top ht.denotes_bot (dependsFrom_const _ _)
    (dependsFrom_const _ _)).mono fun r u htu _ hr => ⟨hr.congr fun v => ?_, ?_⟩
  · cases v i <;> rfl
  · exact Nat.lt_of_lt_of_le hi htu.variableCount_le

end
end Diagram
end RouteSolver
