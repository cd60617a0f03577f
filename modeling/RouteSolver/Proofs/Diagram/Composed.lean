/-
# Formulas are composed of operations

The formulas over bit vectors and choices, and those that count, are no operations of their own:
each of them runs some operations in a row, on diagrams that are there when their turn comes
(`Leads`). So a reachable store is followed by a reachable one (`leads_bitVectorBetween`,
`leads_exactlyOne`, `leads_choiceEq`), and what is said about all reachable stores may be said of
the store that a formula leaves.

What a formula is asked to decide is put as `Store.Decides`: its diagram is true where the property
holds and nowhere else, and all earlier diagrams keep what they denote.
-/

import RouteSolver.Proofs.Diagram.Block
import RouteSolver.Proofs.Diagram.Reachable
import RouteSolver.Proofs.Lists

namespace RouteSolver
namespace Diagram

/-! ### Operations in a row -/

/-- The computation leads from reachable stores to reachable stores. -/
def Reaches {α : Type} (m : Build α) : Prop := ∀ s : Store, s.Reachable → (m.run s).2.Reachable

namespace Reaches

variable {α β : Type}

theorem pure (a : α) : Reaches (Pure.pure a) := fun _ hs => hs

theorem bind {m : Build α} {k : α → Build β} (hm : Reaches m) (hk : ∀ a, Reaches (k a)) :
    Reaches (m >>= k) := fun s hs => hk _ _ (hm s hs)

theorem positives (is : List Nat) : Reaches (is.mapM positive) := by
  induction is with
  | nil => exact .pure _
  | cons i is ih =>
    rw [List.mapM_cons]
    refine .bind (fun s hs => ?_) fun _ => ih.bind fun _ => .pure _
    exact .step (.positive i) hs fun _ h => absurd h List.not_mem_nil

theorem bitVectorLayOut (first width : Nat) : Reaches (BitVector.layOut first width) :=
  (positives _).bind fun _ => .pure _

theorem choiceLayOut [DecidableEq α] (first : Nat) (alternatives : List α) (fallback : α) :
    Reaches (Choice.layOut first alternatives fallback) := (positives _).bind fun _ => .pure _

end Reaches

/-- Run in the store `s`, if that is reachable, the computation leads to a later reachable store,
and to a result of which `post` holds there. -/
def Leads {α : Type} (s : Store) (m : Build α) (post : α → Store → Prop) : Prop :=
  s.Reachable → (m s).2.Reachable ∧ s ≤ (m s).2 ∧ post (m s).1 (m s).2

namespace Leads

variable {α β : Type} {s : Store} {m : Build α} {k : α → Build β} {p q : α → Store → Prop}
  {post : β → Store → Prop}

theorem pure {a : α} (h : s.Reachable → p a s) : Leads s (Pure.pure a) p :=
  fun hs => ⟨hs, le_rfl, h hs⟩

theorem bind (hm : Leads s m p) (hk : ∀ a t, s ≤ t → p a t → Leads t (k a) post) :
    Leads s (m >>= k) post := by
  intro hs
  obtain ⟨ht, hst, hp⟩ := hm hs
  obtain ⟨hu, htu, hq⟩ := hk _ _ hst hp ht
  exact ⟨hu, hst.trans htu, hq⟩

/-- Either of two computations, and then the same. -/
theorem ite_bind {c : Prop} [Decidable c] {m' : Build α} (hm : Leads s m p) (hm' : Leads s m' p)
    (hk : ∀ a t, s ≤ t → p a t → Leads t (k a) post) :
    Leads s (if c then m >>= k else m' >>= k) post := by
  split
  · exact hm.bind hk
  · exact hm'.bind hk

end Leads

section
variable {s t : Store} {a b r : Ref} {rs : List Ref}

/-- The diagrams of a list are there. -/
def Store.HasAll (s : Store) (rs : List Ref) : Prop := ∀ r ∈ rs, s.Has r

theorem Store.HasAll.mono (h : s.HasAll rs) (hst : s ≤ t) : t.HasAll rs :=
  fun r hr => (h r hr).mono hst

theorem Store.hasAll_cons : s.HasAll (r :: rs) ↔ s.Has r ∧ s.HasAll rs := List.forall_mem_cons

theorem Store.hasAll_nil (s : Store) : s.HasAll [] := fun _ h => absurd h List.not_mem_nil

theorem Store.LaysOut.hasAll {first count : Nat} (h : s.LaysOut rs first count) : s.HasAll rs :=
  fun _ hr =>
    let ⟨_, _, hd⟩ := exists_right_of_mem h.denoteAll hr
    hd.has

/-- **One operation** on diagrams that are there. -/
theorem leads_run (o : Operation) (ho : s.HasAll o.operands) : Leads s o.run fun q t => t.Has q :=
  fun hs => hs.run o ho

theorem leads_neg (ha : s.Has a) : Leads s (neg a) fun q t => t.Has q :=
  leads_run (.neg a) (Store.hasAll_cons.2 ⟨ha, s.hasAll_nil⟩)

theorem leads_conj (ha : s.Has a) (hb : s.Has b) : Leads s (conj a b) fun q t => t.Has q :=
  leads_run (.conj a b) (Store.hasAll_cons.2 ⟨ha, Store.hasAll_cons.2 ⟨hb, s.hasAll_nil⟩⟩)

theorem leads_disj (ha : s.Has a) (hb : s.Has b) : Leads s (disj a b) fun q t => t.Has q :=
  leads_run (.disj a b) (Store.hasAll_cons.2 ⟨ha, Store.hasAll_cons.2 ⟨hb, s.hasAll_nil⟩⟩)

theorem leads_conjAll (hrs : s.HasAll rs) : Leads s (conjAll rs) fun q t => t.Has q :=
  leads_run (.conjAll rs) hrs

theorem leads_disjAll (hrs : s.HasAll rs) : Leads s (disjAll rs) fun q t => t.Has q :=
  leads_run (.disjAll rs) hrs

theorem leads_mapM_neg (hrs : s.HasAll rs) : Leads s (rs.mapM neg) fun qs t => t.HasAll qs := by
  induction rs generalizing s with
  | nil => exact .pure fun _ => s.hasAll_nil
  | cons r rs ih =>
    obtain ⟨hr, hrest⟩ := Store.hasAll_cons.1 hrs
    rw [List.mapM_cons]
    refine (leads_neg hr).bind fun q t hst hq => ?_
    refine (ih (hrest.mono hst)).bind fun qs u htu hqs => .pure fun _ => ?_
    exact Store.hasAll_cons.2 ⟨hq.mono htu, hqs⟩

/-! ### Comparisons -/

theorem leads_literals (n : Nat) (hrs : s.HasAll rs) :
    Leads s (BitVector.literals n rs) fun qs t => t.HasAll qs := by
  induction rs generalizing s n with
  | nil => exact .pure fun _ => s.hasAll_nil
  | cons r rs ih =>
    obtain ⟨hr, hrest⟩ := Store.hasAll_cons.1 hrs
    refine .ite_bind (.pure fun _ => hr) (leads_neg hr) fun q t hst hq => ?_
    refine (ih _ (hrest.mono hst)).bind fun qs u htu hqs => .pure fun _ => ?_
    exact Store.hasAll_cons.2 ⟨hq.mono htu, hqs⟩

theorem leads_geFrom (n : Nat) (ha : s.Has a) (hrs : s.HasAll rs) :
    Leads s (BitVector.geFrom n a rs) fun q t => t.Has q := by
  induction rs generalizing s n a with
  | nil => exact .pure fun _ => ha
  | cons r rs ih =>
    obtain ⟨hr, hrest⟩ := Store.hasAll_cons.1 hrs
    exact .ite_bind (leads_conj hr ha) (leads_disj hr ha) fun q t hst hq =>
      ih _ hq (hrest.mono hst)

theorem leads_leFrom (n : Nat) (ha : s.Has a) (hrs : s.HasAll rs) :
    Leads s (BitVector.leFrom n a rs) fun q t => t.Has q := by
  induction rs generalizing s n a with
  | nil => exact .pure fun _ => ha
  | cons r rs ih =>
    obtain ⟨hr, hrest⟩ := Store.hasAll_cons.1 hrs
    refine (leads_neg hr).bind fun clear t hst hclear => ?_
    refine .ite_bind (leads_disj hclear (ha.mono hst)) (leads_conj hclear (ha.mono hst))
      fun q u htu hq => ih _ hq (hrest.mono (hst.trans htu))

variable {x : BitVector}

theorem Store.HasAll.reverse (h : s.HasAll rs) : s.HasAll rs.reverse :=
  fun r hr => h r (List.mem_reverse.1 hr)

theorem leads_bitVectorEq (hx : s.HasAll x.bits) (n : Nat) :
    Leads s (x.eq n) fun q t => t.Has q := by
  rw [BitVector.eq]
  split
  · exact .pure fun hs => hs.valid.has_bot
  · exact (leads_literals n hx.reverse).bind fun qs t _ hqs => leads_conjAll hqs

theorem leads_bitVectorGe (hx : s.HasAll x.bits) (n : Nat) :
    Leads s (x.ge n) fun q t => t.Has q := by
  rw [BitVector.ge]
  split
  · exact .pure fun hs => hs.valid.has_bot
  · exact fun hs => leads_geFrom n hs.valid.has_top hx.reverse hs

theorem leads_bitVectorLe (hx : s.HasAll x.bits) (n : Nat) :
    Leads s (x.le n) fun q t => t.Has q := by
  rw [BitVector.le]
  split
  · exact .pure fun hs => hs.valid.has_top
  · exact fun hs => leads_leFrom n hs.valid.has_top hx.reverse hs

theorem leads_bitVectorBetween (hx : s.HasAll x.bits) (lo hi : Nat) :
    Leads s (x.between lo hi) fun q t => t.Has q :=
  (leads_bitVectorGe hx lo).bind fun _ _ hst hlower =>
    (leads_bitVectorLe (hx.mono hst) hi).bind fun _ _ htu hupper =>
      leads_conj (hlower.mono htu) hupper

/-! ### Counting and choices -/

theorem leads_atMostOneFrom (ha : s.Has a) (hb : s.Has b) (hrs : s.HasAll rs) :
    Leads s (atMostOneFrom a b rs) fun q t => t.Has q := by
  induction rs generalizing s a b with
  | nil => exact .pure fun _ => hb
  | cons r rs ih =>
    obtain ⟨hr, hrest⟩ := Store.hasAll_cons.1 hrs
    refine (leads_neg hr).bind fun clear t hst hclear => ?_
    refine (leads_conj hclear (hb.mono hst)).bind fun skipped u htu hskipped => ?_
    have hsu := hst.trans htu
    refine (leads_conj (hr.mono hsu) (ha.mono hsu)).bind fun taken y huy htaken => ?_
    refine (leads_disj (hskipped.mono huy) htaken).bind fun within z hyz hwithin => ?_
    have htz := htu.trans (huy.trans hyz)
    refine (leads_conj (ha.mono (hst.trans htz)) (hclear.mono htz)).bind fun none w hzw hnone => ?_
    exact ih hnone (hwithin.mono hzw) (hrest.mono ((hst.trans htz).trans hzw))

theorem leads_atMostOne (hrs : s.HasAll rs) : Leads s (atMostOne rs) fun q t => t.Has q :=
  fun hs => leads_atMostOneFrom hs.valid.has_top hs.valid.has_top hrs hs

theorem leads_exactlyOne (hrs : s.HasAll rs) : Leads s (exactlyOne rs) fun q t => t.Has q :=
  (leads_atMostOne hrs).bind fun _ _ hst hfew =>
    (leads_disjAll (hrs.mono hst)).bind fun _ _ htu hpresent => leads_conj (hfew.mono htu) hpresent

theorem leads_choiceLiterals (i : Nat) (hrs : s.HasAll rs) :
    Leads s (Choice.literals i rs) fun qs t => t.HasAll qs := by
  induction rs generalizing s i with
  | nil =>
    rw [Choice.literals]
    exact .pure fun _ => s.hasAll_nil
  | cons r rs ih =>
    obtain ⟨hr, hrest⟩ := Store.hasAll_cons.1 hrs
    cases i with
    | zero =>
      refine (leads_mapM_neg hrest).bind fun qs t hst hqs => .pure fun _ => ?_
      exact Store.hasAll_cons.2 ⟨hr.mono hst, hqs⟩
    | succ i =>
      refine (leads_neg hr).bind fun clear t hst hclear => ?_
      refine (ih i (hrest.mono hst)).bind fun qs u htu hqs => .pure fun _ => ?_
      exact Store.hasAll_cons.2 ⟨hclear.mono htu, hqs⟩

theorem leads_choiceEq {α : Type} [DecidableEq α] {c : Choice α} (hc : s.HasAll c.selectors)
    (a : α) : Leads s (c.eq a) fun q t => t.Has q := by
  rw [Choice.eq]
  split
  · exact .pure fun hs => hs.valid.has_bot
  · exact (leads_choiceLiterals _ hc).bind fun qs t _ hqs => leads_conjAll hqs

end

/-! ### What a formula decides -/

namespace Store

variable {s : Store} {m : Build Ref} {f : Valuation → Bool} {P : Valuation → Prop}

/-- Run in the store, the computation leads to a reachable store and gives a diagram that is true
exactly where `P` holds; and every diagram of the store denotes what it denoted before. -/
structure Decides (s : Store) (m : Build Ref) (P : Valuation → Prop) : Prop where
  reachable : (m.run s).2.Reachable
  has : (m.run s).2.Has (m.run s).1
  eval_iff : ∀ v, (m.run s).2.eval (m.run s).1 v = true ↔ P v
  keeps : ∀ r, s.Has r → (m.run s).2.Denotes r (s.eval r)

theorem Reachable.decides (hs : s.Reachable) {q : Ref → Store → Prop} (hl : Leads s m q)
    (hy : Yields s m fun r t => t.Denotes r f) (hf : ∀ v, f v = true ↔ P v) : s.Decides m P := by
  obtain ⟨-, hst, hden⟩ := hy hs.valid
  exact {
    reachable := (hl hs).1
    has := hden.has
    eval_iff := fun v => by rw [← hf, ← hden.eval_eq]; rfl
    keeps := fun r hr => hr.denotes.mono hs.valid hst }

end Store
end Diagram
end RouteSolver
