/-
# The least member of a language

Byte strings are ordered by length and then byte by byte (`Precedes`). `leastBytes` finds the first
member of the language in that order whenever there is a member (`Valid.leastBytes_spec`).

The queue of the walk ascends (`Search.Ordered`). Every string either leads to a state that has been
looked at, by a path in the queue that does not come later, or does not come before some entry that
waits (`Looked.waiting_or_looked`); so the first accepting state of the queue has the least path.
-/

import RouteSolver.Automaton.Example
import RouteSolver.Proofs.Automaton.Exploring
import Mathlib.Data.List.Shortlex
import Mathlib.Data.UInt

namespace RouteSolver
namespace Automaton

/-! ### The order of byte strings -/

/-- Shorter strings come first, strings of one length byte by byte. -/
def Precedes (u v : List UInt8) : Prop := List.Shortlex (· < ·) u v

/-- The same string or an earlier one. -/
def NoLater (u v : List UInt8) : Prop := u = v ∨ Precedes u v

namespace Precedes

variable {u v w : List UInt8} {b c : UInt8}

theorem of_length_lt (h : u.length < v.length) : Precedes u v := List.Shortlex.of_length_lt h

theorem trans (h : Precedes u v) (k : Precedes v w) : Precedes u w := by
  rcases List.shortlex_def.1 h with h | ⟨hlen, h⟩ <;>
    rcases List.shortlex_def.1 k with k | ⟨klen, k⟩
  · exact of_length_lt (Nat.lt_trans h k)
  · exact of_length_lt (klen ▸ h)
  · exact of_length_lt (hlen ▸ k)
  · exact List.Shortlex.of_lex (hlen.trans klen) (List.lex_trans UInt8.lt_trans h k)

theorem irrefl (u : List UInt8) : ¬Precedes u u := fun h => by
  rcases List.shortlex_def.1 h with h | ⟨-, h⟩
  · exact Nat.lt_irrefl _ h
  · exact List.lex_irrefl UInt8.lt_irrefl u h

theorem append {x y : List UInt8} (h : Precedes u v) (hle : x.length ≤ y.length) :
    Precedes (u ++ x) (v ++ y) := by
  have hlex : ∀ {u v : List UInt8}, u.length = v.length → List.Lex (· < ·) u v →
      List.Lex (· < ·) (u ++ x) (v ++ y) := by
    intro u v hlen h
    induction h with
    | nil => exact absurd hlen (Nat.succ_ne_zero _).symm
    | cons _ ih => exact .cons (ih (Nat.succ.inj hlen))
    | rel h => exact .rel h
  have hu : (u ++ x).length = u.length + x.length := List.length_append
  have hv : (v ++ y).length = v.length + y.length := List.length_append
  rcases List.shortlex_def.1 h with h | ⟨hlen, h⟩
  · exact of_length_lt (by omega)
  · rcases Nat.lt_or_eq_of_le hle with hlt | heq
    · exact of_length_lt (by omega)
    · exact List.Shortlex.of_lex (by omega) (hlex hlen h)

theorem concat (h : Precedes u v) (b c : UInt8) : Precedes (u ++ [b]) (v ++ [c]) :=
  h.append (Nat.le_refl _)

theorem concat_self (u : List UInt8) (b : UInt8) : Precedes u (u ++ [b]) :=
  of_length_lt (by rw [List.length_append]; exact Nat.lt_succ_self _)

theorem concat_of_lt (u : List UInt8) (h : b < c) : Precedes (u ++ [b]) (u ++ [c]) :=
  List.Shortlex.append_left ((List.shortlex_singleton_iff b c).2 h) u

end Precedes

namespace NoLater

variable {u v w : List UInt8} {b c : UInt8}

theorem trans (h : NoLater u v) (k : NoLater v w) : NoLater u w := by
  rcases h with rfl | h
  · exact k
  · rcases k with rfl | k
    · exact .inr h
    · exact .inr (h.trans k)

theorem refl (u : List UInt8) : NoLater u u := .inl rfl

theorem length_le (h : NoLater u v) : u.length ≤ v.length := by
  rcases h with rfl | h
  · exact Nat.le_refl _
  · rcases List.shortlex_def.1 h with h | ⟨h, -⟩
    · exact Nat.le_of_lt h
    · exact Nat.le_of_eq h

theorem nil_left (u : List UInt8) : NoLater [] u := by
  cases u with
  | nil => exact .refl _
  | cons b u => exact .inr (.of_length_lt (Nat.succ_pos _))

theorem append {x y : List UInt8} (h : NoLater u v) (k : NoLater x y) :
    NoLater (u ++ x) (v ++ y) := by
  rcases h with rfl | h
  · exact k.imp (congrArg (u ++ ·)) fun k => List.Shortlex.append_left k u
  · exact .inr (h.append k.length_le)

theorem concat (h : NoLater u v) (b : UInt8) : NoLater (u ++ [b]) (v ++ [b]) := h.append (.refl _)

theorem concat_of_le (u : List UInt8) (h : b ≤ c) : NoLater (u ++ [b]) (u ++ [c]) := by
  rcases UInt8.lt_or_eq_of_le h with h | rfl
  · exact .inr (.concat_of_lt u h)
  · exact .inl rfl

theorem antisymm (h : NoLater u v) (k : NoLater v u) : u = v := by
  rcases h with h | h
  · exact h
  · rcases k with k | k
    · exact k.symm
    · exact absurd (h.trans k) (Precedes.irrefl u)

end NoLater

/-! ### The queue -/

namespace Search

variable {a : Automaton} {search : Search}

/-- The paths of the queue ascend and lead to their states, which are all different. -/
structure Ordered (a : Automaton) (search : Search) : Prop where
  start : search.queue[0]? = some (0, [])
  run_eq : ∀ (k q : Nat) (p : List UInt8), search.queue[k]? = some (q, p) → a.run p.reverse = q
  ascending : ∀ (j k : Nat) (e f : Nat × List UInt8), j < k → search.queue[j]? = some e →
    search.queue[k]? = some f → Precedes e.2.reverse f.2.reverse
  size_seen : search.seen.size = a.size
  seen_iff : ∀ q, q < a.size →
    (search.seen.getD q true = true ↔ ∃ (k : Nat) (p : List UInt8), search.queue[k]? = some (q, p))
  distinct : ∀ (j k q : Nat) (p p' : List UInt8), search.queue[j]? = some (q, p) →
    search.queue[k]? = some (q, p') → j = k

/-- **A new state at the end** keeps the queue in order, if its path comes after all others. -/
theorem Ordered.push (h : search.Ordered a) {q : Nat} {p : List UInt8} (hq : a.run p.reverse = q)
    (hlt : q < a.size) (hnew : ¬search.seen.getD q true = true)
    (hlast : ∀ (k : Nat) (e : Nat × List UInt8), search.queue[k]? = some e →
      Precedes e.2.reverse p.reverse) :
    Ordered a ⟨search.queue.push (q, p), search.seen.setIfInBounds q true⟩ := by
  have hfresh : ∀ (k : Nat) (p' : List UInt8), search.queue[k]? ≠ some (q, p') := fun k p' hk =>
    hnew ((h.seen_iff q hlt).2 ⟨k, p', hk⟩)
  have hpos : ∀ {k : Nat} {e : Nat × List UInt8}, search.queue[k]? = some e →
      k < search.queue.size := fun hk => (Array.getElem?_eq_some_iff.1 hk).1
  refine {
    start := getElem?_push_of_eq_some h.start
    run_eq := fun k r p' hk => ?_
    ascending := fun j k e f hjk hj hk => ?_
    size_seen := Array.size_setIfInBounds.trans h.size_seen
    seen_iff := fun r hr => ?_
    distinct := fun j k r p' p'' hj hk => ?_ }
  · rcases getElem?_push_eq_some_iff.1 hk with hk | ⟨-, hk⟩
    · exact h.run_eq k r p' hk
    · obtain ⟨rfl, rfl⟩ := Prod.mk.inj hk
      exact hq
  · rcases getElem?_push_eq_some_iff.1 hk with hk | ⟨rfl, rfl⟩
    · rcases getElem?_push_eq_some_iff.1 hj with hj | ⟨rfl, -⟩
      · exact h.ascending j k e f hjk hj hk
      · exact absurd hjk (Nat.not_lt.2 (Nat.le_of_lt (hpos hk)))
    · rcases getElem?_push_eq_some_iff.1 hj with hj | ⟨rfl, -⟩
      · exact hlast j e hj
      · exact absurd hjk (Nat.lt_irrefl _)
  · rw [Array.getD_eq_getD_getElem?, Array.getElem?_setIfInBounds]
    split
    · rename_i hqr
      subst hqr
      rw [if_pos (h.size_seen.symm ▸ hr), Option.getD_some]
      exact ⟨fun _ => ⟨_, _, getElem?_push_eq_some_iff.2 (.inr ⟨rfl, rfl⟩)⟩, fun _ => rfl⟩
    · rename_i hqr
      rw [← Array.getD_eq_getD_getElem?, h.seen_iff r hr]
      refine exists_congr fun k => exists_congr fun p' => ?_
      rw [getElem?_push_eq_some_iff]
      exact (or_iff_left fun hk => hqr (congrArg Prod.fst hk.2).symm).symm
  · rcases getElem?_push_eq_some_iff.1 hj with hj | ⟨rfl, heq⟩ <;>
      rcases getElem?_push_eq_some_iff.1 hk with hk | ⟨rfl, heq'⟩
    · exact h.distinct j k r p' p'' hj hk
    · exact absurd ((Prod.mk.inj heq').1 ▸ hj) (hfresh _ _)
    · exact absurd ((Prod.mk.inj heq).1 ▸ hk) (hfresh _ _)
    · rfl

/-- The queue has no more entries than there are states. -/
theorem Ordered.size_le (h : search.Ordered a) (ha : a.Valid) : search.queue.size ≤ a.size := by
  have hnodup : (search.queue.toList.map Prod.fst).Nodup := by
    refine List.pairwise_map.2 (List.pairwise_iff_getElem.2 fun j k hj hk hjk heq => ?_)
    have hj' := Array.getElem?_eq_getElem (Array.length_toList ▸ hj)
    have hk' := Array.getElem?_eq_getElem (Array.length_toList ▸ hk)
    rw [Array.getElem_toList, Array.getElem_toList] at heq
    refine Nat.ne_of_lt hjk (h.distinct j k _ _ (search.queue[k]).2 hj' ?_)
    exact hk'.trans (congrArg some (Prod.ext heq.symm rfl))
  have hsub : search.queue.toList.map Prod.fst ⊆ List.range a.size := by
    intro q hq
    obtain ⟨e, he, rfl⟩ := List.mem_map.1 hq
    obtain ⟨k, hk, rfl⟩ := List.mem_iff_getElem.1 he
    rw [Array.length_toList] at hk
    have hrun : a.run search.queue[k].2.reverse = search.queue[k].1 :=
      h.run_eq k _ _ (Array.getElem?_eq_getElem hk)
    rw [List.mem_range, Array.getElem_toList, ← hrun]
    exact ha.run_lt _
  have hle := (List.subperm_of_subset hnodup hsub).length_le
  rwa [List.length_map, Array.length_toList, List.length_range] at hle

/-- **Looking at a state** puts each of its successors into the queue, unless it is there by a path
that comes no later. -/
theorem Ordered.extend (ha : a.Valid) {q : Nat} {path : List UInt8} (hq : a.run path.reverse = q)
    (bs : List UInt8) (hbs : bs.Pairwise (· < ·)) (h : search.Ordered a)
    (hlast : ∀ (k : Nat) (e : Nat × List UInt8), search.queue[k]? = some e →
      ∀ b ∈ bs, Precedes e.2.reverse (path.reverse ++ [b])) :
    (extend a q path bs search).Ordered a ∧
      (∀ (k : Nat) (e : Nat × List UInt8), search.queue[k]? = some e →
        (extend a q path bs search).queue[k]? = some e) ∧
      (∀ b ∈ bs, ∃ (k : Nat) (p : List UInt8),
        (extend a q path bs search).queue[k]? = some (a.step q b, p) ∧
          NoLater p.reverse (path.reverse ++ [b])) ∧
      ∀ (k : Nat) (e : Nat × List UInt8), (extend a q path bs search).queue[k]? = some e →
        search.queue[k]? = some e ∨ ∃ b, e.2 = b :: path := by
  induction bs generalizing search with
  | nil =>
    exact ⟨h, fun _ _ hk => hk, fun b hb => absurd hb List.not_mem_nil, fun _ _ hk => .inl hk⟩
  | cons b bs ih =>
    obtain ⟨hb, hbs⟩ := List.pairwise_cons.1 hbs
    have hstep : a.run (b :: path).reverse = a.step q b := by
      rw [List.reverse_cons, run_concat, hq]
    have hlt : a.step q b < a.size := hstep ▸ ha.run_lt _
    rw [extend]
    split
    · rename_i hseen
      obtain ⟨hord, hgrow, hall, hnew⟩ := ih hbs h fun k e hk c hc =>
        hlast k e hk c (List.mem_cons_of_mem _ hc)
      refine ⟨hord, hgrow, fun c hc => ?_, hnew⟩
      rcases List.mem_cons.1 hc with rfl | hc
      · obtain ⟨k, p, hk⟩ := (h.seen_iff _ hlt).1 hseen
        exact ⟨k, p, hgrow k _ hk, .inr (hlast k _ hk c List.mem_cons_self)⟩
      · exact hall c hc
    · rename_i hseen
      have hpush := h.push hstep hlt hseen fun k e hk => by
        rw [List.reverse_cons]
        exact hlast k e hk b List.mem_cons_self
      obtain ⟨hord, hgrow, hall, hnew⟩ := ih hbs hpush fun k e hk c hc => by
        rcases getElem?_push_eq_some_iff.1 hk with hk | ⟨-, rfl⟩
        · exact hlast k e hk c (List.mem_cons_of_mem _ hc)
        · rw [List.reverse_cons]
          exact .concat_of_lt _ (hb c hc)
      refine ⟨hord, fun k e hk => hgrow k e (getElem?_push_of_eq_some hk), fun c hc => ?_,
        fun k e hk => ?_⟩
      · rcases List.mem_cons.1 hc with rfl | hc
        · refine ⟨_, _, hgrow _ _ Array.getElem?_push_size, .inl ?_⟩
          rw [List.reverse_cons]
        · exact hall c hc
      · rcases hnew k e hk with hk | hk
        · exact (getElem?_push_eq_some_iff.1 hk).imp id fun hk => ⟨b, congrArg Prod.snd hk.2⟩
        · exact .inr hk

/-- The first `i` entries have been looked at: they do not accept, and their successors are in the
queue by paths that come no later. What comes after an entry that waits comes after the queue. -/
structure Looked (a : Automaton) (search : Search) (i : Nat) : Prop where
  ordered : search.Ordered a
  rejecting : ∀ (j q : Nat) (p : List UInt8), j < i → search.queue[j]? = some (q, p) →
    a.isAccepting q = false
  successors : ∀ (j q : Nat) (p : List UInt8), j < i → search.queue[j]? = some (q, p) → ∀ b,
    ∃ (k : Nat) (p' : List UInt8), search.queue[k]? = some (a.step q b, p') ∧
      NoLater p'.reverse (p.reverse ++ [b])
  last : ∀ (j k : Nat) (e f : Nat × List UInt8), i ≤ k → search.queue[j]? = some e →
    search.queue[k]? = some f → ∀ b, Precedes e.2.reverse (f.2.reverse ++ [b])

/-- **Every string** leads to a state that has been looked at, or does not come before an entry
that waits. -/
theorem Looked.waiting_or_looked {i : Nat} (h : search.Looked a i) (w : List UInt8) :
    (∃ (j : Nat) (p : List UInt8), j < i ∧ search.queue[j]? = some (a.run w, p) ∧
        NoLater p.reverse w) ∨
      ∃ (k : Nat) (e : Nat × List UInt8), i ≤ k ∧ search.queue[k]? = some e ∧
        NoLater e.2.reverse w := by
  have place : ∀ {k : Nat} {p w : List UInt8}, search.queue[k]? = some (a.run w, p) →
      NoLater p.reverse w → (∃ (j : Nat) (p : List UInt8), j < i ∧
        search.queue[j]? = some (a.run w, p) ∧ NoLater p.reverse w) ∨
      ∃ (k : Nat) (e : Nat × List UInt8), i ≤ k ∧ search.queue[k]? = some e ∧
        NoLater e.2.reverse w := by
    intro k p w hk hp
    rcases Nat.lt_or_ge k i with hki | hki
    · exact .inl ⟨k, p, hki, hk, hp⟩
    · exact .inr ⟨k, _, hki, hk, hp⟩
  induction w using List.reverseRecOn with
  | nil => exact place h.ordered.start (.inl rfl)
  | append_singleton w b ih =>
    rcases ih with ⟨j, p, hj, hget, hp⟩ | ⟨k, e, hk, hget, he⟩
    · obtain ⟨k, p', hk, hp'⟩ := h.successors j _ p hj hget b
      rw [← run_concat] at hk
      exact place hk (hp'.trans (hp.concat b))
    · exact .inr ⟨k, e, hk, hget, he.trans (.inr (.concat_self w b))⟩

/-- Looking at one more state keeps the invariant. -/
theorem Looked.step (ha : a.Valid) {i q : Nat} {path : List UInt8} (h : search.Looked a i)
    (hi : search.queue[i]? = some (q, path)) (hrej : a.isAccepting q = false) :
    (extend a q path a.alphabet.representatives.toList search).Looked a (i + 1) := by
  have hq := h.ordered.run_eq i q path hi
  obtain ⟨hord, hgrow, hall, hnew⟩ := Ordered.extend ha hq _ ha.alphabet.ascending h.ordered
    fun k e hk b _ => h.last k i e _ (Nat.le_refl i) hk hi b
  -- the entries up to this one are where they were
  have hold : ∀ {j : Nat} {e : Nat × List UInt8}, j ≤ i →
      (extend a q path a.alphabet.representatives.toList search).queue[j]? = some e →
      search.queue[j]? = some e := by
    intro j e hj hget
    obtain ⟨hlt, -⟩ := Array.getElem?_eq_some_iff.1 hi
    have hsome := Array.getElem?_eq_getElem (Nat.lt_of_le_of_lt hj hlt)
    rw [hgrow j _ hsome] at hget
    exact hsome.trans hget
  refine {
    ordered := hord
    rejecting := fun j r p hj hget => ?_
    successors := fun j r p hj hget b => ?_
    last := fun j k e f hk hj hget b => ?_ }
  · have hget := hold (Nat.le_of_lt_succ hj) hget
    rcases Nat.lt_succ_iff_lt_or_eq.1 hj with hj | rfl
    · exact h.rejecting j r p hj hget
    · rw [hi, Option.some.injEq, Prod.mk.injEq] at hget
      exact hget.1 ▸ hrej
  · have hget := hold (Nat.le_of_lt_succ hj) hget
    rcases Nat.lt_succ_iff_lt_or_eq.1 hj with hj | rfl
    · obtain ⟨k, p', hk, hp'⟩ := h.successors j r p hj hget b
      exact ⟨k, p', hgrow k _ hk, hp'⟩
    · rw [hi, Option.some.injEq, Prod.mk.injEq] at hget
      obtain ⟨rfl, rfl⟩ := hget
      -- the byte leads where the least byte of its letter leads
      obtain ⟨c, hc, hcb⟩ := ha.alphabet.exists_representative b
      have hmem : c ∈ a.alphabet.representatives.toList :=
        Array.mem_toList_iff.2 (Array.mem_of_getElem? hc)
      obtain ⟨k, p', hk, hp'⟩ := hall c hmem
      rw [a.step_eq_of_letter_eq q (ha.alphabet.letter_representative _ c hc)] at hk
      exact ⟨k, p', hk, hp'.trans (.concat_of_le _ hcb)⟩
  · have hlast := h.last
    rcases hnew j e hj with hj | ⟨c, hc⟩ <;> rcases hnew k f hget with hget | ⟨d, hd⟩
    · exact hlast j k e f (Nat.le_of_succ_le hk) hj hget b
    · rw [hd, List.reverse_cons]
      exact (hlast j i e _ (Nat.le_refl i) hj hi d).trans (.concat_self _ b)
    · rw [hc, List.reverse_cons]
      exact (h.ordered.ascending i k _ f hk hi hget).concat c b
    · rw [hc, hd, List.reverse_cons, List.reverse_cons]
      exact .of_length_lt (by simp)

end Search

/-! ### The least member -/

/-- The string is in the language, and no other member comes before it. -/
def IsLeast (a : Automaton) (w : List UInt8) : Prop :=
  a.acceptsBytes w = true ∧ ∀ u, a.acceptsBytes u = true → NoLater w u

theorem isLeast_congr {a b : Automaton} (h : ∀ w, a.acceptsBytes w = b.acceptsBytes w)
    (w : List UInt8) : a.IsLeast w ↔ b.IsLeast w := by
  rw [IsLeast, IsLeast, h w]
  simp only [h]

theorem IsLeast.eq {a : Automaton} {v w : List UInt8} (hv : a.IsLeast v) (hw : a.IsLeast w) :
    v = w := (hv.2 w hw.1).antisymm (hw.2 v hv.1)

variable {a : Automaton}

/-- **The walk finds the least member**, or there is none. -/
theorem Search.Looked.leastFrom (ha : a.Valid) {search : Search} {bound i : Nat}
    (hbound : a.size ≤ i + bound) (h : search.Looked a i) :
    (∃ w, a.leastFrom bound i search = some w ∧ a.IsLeast w) ∨
      a.leastFrom bound i search = none ∧ ∀ u, a.acceptsBytes u = false := by
  -- what is left once no entry waits
  have exhausted : ∀ {i : Nat} {search : Search}, search.Looked a i → search.queue.size ≤ i →
      ∀ u, a.acceptsBytes u = false := by
    intro i search h hsize u
    rcases h.waiting_or_looked u with ⟨j, p, hj, hget, -⟩ | ⟨k, e, hk, hget, -⟩
    · exact h.rejecting j _ p hj hget
    · obtain ⟨hlt, -⟩ := Array.getElem?_eq_some_iff.1 hget
      omega
  induction bound generalizing i search with
  | zero => exact .inr ⟨rfl, exhausted h (Nat.le_trans (h.ordered.size_le ha) hbound)⟩
  | succ bound ih =>
    rw [Automaton.leastFrom]
    split
    · rename_i hnone
      exact .inr ⟨rfl, exhausted h (Array.getElem?_eq_none_iff.1 hnone)⟩
    rename_i q path hi
    split
    · rename_i hacc
      refine .inl ⟨_, rfl, ?_, fun u hu => ?_⟩
      · rw [acceptsBytes, h.ordered.run_eq i q path hi, hacc]
      · rcases h.waiting_or_looked u with ⟨j, p, hj, hget, -⟩ | ⟨k, e, hk, hget, he⟩
        · exact absurd hu (Bool.eq_false_iff.1 (h.rejecting j _ p hj hget))
        · rcases Nat.lt_or_eq_of_le hk with hk | rfl
          · exact (NoLater.trans (.inr (h.ordered.ascending i k _ e hk hi hget))) he
          · rw [hi, Option.some.injEq] at hget
            rwa [← hget] at he
    · rename_i hrej
      exact ih (by omega) (h.step ha hi (Bool.eq_false_iff.2 hrej))

/-- At the start the queue holds the start state alone. -/
theorem Search.looked_start (ha : a.Valid) :
    Search.Looked a ⟨#[(0, [])], (Array.replicate a.size false).setIfInBounds 0 true⟩ 0 := by
  have hget : ∀ {k : Nat} {e : Nat × List UInt8},
      (#[(0, [])] : Array (Nat × List UInt8))[k]? = some e ↔ k = 0 ∧ e = (0, []) := by
    intro k e
    cases k with
    | zero => exact ⟨fun h => ⟨rfl, (Option.some.inj h).symm⟩, fun h => congrArg some h.2.symm⟩
    | succ k => exact ⟨nofun, fun h => absurd h.1 (Nat.succ_ne_zero k)⟩
  refine {
    ordered := {
      start := rfl
      run_eq := fun k q p hk => ?_
      ascending := fun j k e f hjk hj hk => ?_
      size_seen := by rw [Array.size_setIfInBounds, Array.size_replicate]
      seen_iff := fun q hq => ?_
      distinct := fun j k q p p' hj hk => ?_ }
    rejecting := fun j q p hj => absurd hj (Nat.not_lt_zero _)
    successors := fun j q p hj => absurd hj (Nat.not_lt_zero _)
    last := fun j k e f _ hj hk b => ?_ }
  · obtain ⟨-, heq⟩ := hget.1 hk
    obtain ⟨rfl, rfl⟩ := Prod.mk.inj heq
    rfl
  · rw [(hget.1 hk).1] at hjk
    exact absurd hjk (Nat.not_lt_zero _)
  · rw [Array.getD_eq_getD_getElem?, Array.getElem?_setIfInBounds, Array.size_replicate]
    split
    · rename_i hq0
      rw [if_pos ha.size_pos, Option.getD_some]
      exact ⟨fun _ => ⟨0, [], hget.2 ⟨rfl, by rw [hq0]⟩⟩, fun _ => rfl⟩
    · rename_i hq0
      rw [Array.getElem?_replicate, if_pos hq, Option.getD_some]
      exact ⟨nofun, fun ⟨k, p, hk⟩ => absurd (Prod.mk.inj (hget.1 hk).2).1.symm hq0⟩
  · rw [(hget.1 hj).1, (hget.1 hk).1]
  · rw [(hget.1 hj).2]
    exact .of_length_lt (by simp)

theorem Valid.leastBytes_spec (ha : a.Valid) :
    (∃ w, a.leastBytes = some w ∧ a.IsLeast w) ∨
      a.leastBytes = none ∧ ∀ u, a.acceptsBytes u = false :=
  Search.Looked.leastFrom ha (Nat.le_of_eq (Nat.zero_add _).symm) (Search.looked_start ha)

/-- **The least member is found** when there is a member. -/
theorem Valid.leastBytes_eq_some (ha : a.Valid) {u : List UInt8} (hu : a.acceptsBytes u = true) :
    ∃ w, a.leastBytes = some w ∧ a.IsLeast w := by
  rcases ha.leastBytes_spec with h | ⟨-, h⟩
  · exact h
  · exact absurd (hu.symm.trans (h u)) (by decide)

theorem Valid.isLeast_of_leastBytes (ha : a.Valid) {w : List UInt8} (hw : a.leastBytes = some w) :
    a.IsLeast w := by
  rcases ha.leastBytes_spec with ⟨v, hv, hleast⟩ | ⟨h, -⟩
  · rw [hw, Option.some.injEq] at hv
    exact hv ▸ hleast
  · exact nomatch hw.symm.trans h

end Automaton
end RouteSolver
