/-
# Facts about lists

Lists without repetitions, lists that go together element by element, computing something for the
values of a list one after the other, and counting.
-/

import Mathlib.Data.Fintype.Fin
import Mathlib.Data.List.Count
import Mathlib.Data.List.Forall2
import Mathlib.Data.List.Nodup

namespace RouteSolver

/-- Some values without repetitions. -/
theorem nodup_eraseDups {α : Type} [DecidableEq α] (xs : List α) : xs.eraseDups.Nodup := by
  induction h : xs.length using Nat.strongRecOn generalizing xs with
  | ind n ih =>
    cases xs with
    | nil => exact List.nodup_nil
    | cons x xs =>
      rw [List.eraseDups_cons, List.nodup_cons]
      refine ⟨fun hx => ?_, ih _ ?_ _ rfl⟩
      · rw [List.mem_eraseDups, List.mem_filter] at hx
        simp at hx
      · rw [← h, List.length_cons]
        exact Nat.lt_succ_of_le (List.length_filter_le _ _)

theorem eraseDups_map {α β : Type} [DecidableEq α] [DecidableEq β] {f : α → β}
    (hf : Function.Injective f) (xs : List α) : (xs.map f).eraseDups = xs.eraseDups.map f := by
  induction h : xs.length using Nat.strongRecOn generalizing xs with
  | ind n ih =>
    cases xs with
    | nil => rfl
    | cons x xs =>
      have hfilter : (xs.map f).filter (fun b => !b == f x) =
          (xs.filter fun b => !b == x).map f := by
        rw [List.filter_map]
        refine congrArg (List.map f) (List.filter_congr fun b _ => ?_)
        exact congrArg (!·) (decide_eq_decide.2 hf.eq_iff)
      rw [List.map_cons, List.eraseDups_cons, List.eraseDups_cons, List.map_cons, hfilter,
        ih _ ?_ _ rfl]
      rw [← h, List.length_cons]
      exact Nat.lt_succ_of_le (List.length_filter_le _ _)

/-- A computation that succeeds has a first step that does. -/
theorem exists_of_bind_eq_ok {α β ε : Type} {x : Except ε α} {k : α → Except ε β} {b : β}
    (h : x >>= k = .ok b) : ∃ a, x = .ok a ∧ k a = .ok b := by
  cases x with
  | error e => nomatch h
  | ok a => exact ⟨a, rfl, h⟩

/-- What has been computed for some values one after the other. -/
theorem mapM_eq_ok_iff {α β ε : Type} {f : α → Except ε β} {xs : List α} {ys : List β} :
    xs.mapM f = .ok ys ↔ List.Forall₂ (fun x y => f x = .ok y) xs ys := by
  constructor
  · intro h
    induction xs generalizing ys with
    | nil =>
      obtain rfl : [] = ys := Except.ok.inj h
      exact .nil
    | cons x xs ih =>
      rw [List.mapM_cons] at h
      obtain ⟨y, hy, h⟩ := exists_of_bind_eq_ok h
      obtain ⟨zs, hzs, h⟩ := exists_of_bind_eq_ok h
      obtain rfl : y :: zs = ys := Except.ok.inj h
      exact .cons hy (ih hzs)
  · intro h
    induction h with
    | nil => rfl
    | cons hy _ ih =>
      rw [List.mapM_cons, hy, ih]
      rfl

/-- What can be computed for some values can be for fewer of them. -/
theorem mapM_sublist {α β ε : Type} {f : α → Except ε β} {xs ys : List α} (h : xs.Sublist ys)
    {ds : List β} (hds : ys.mapM f = .ok ds) : ∃ cs, xs.mapM f = .ok cs ∧ cs.Sublist ds := by
  simp only [mapM_eq_ok_iff] at hds ⊢
  induction h generalizing ds with
  | slnil => exact ⟨ds, hds, .refl _⟩
  | cons y _ ih =>
    obtain ⟨d, ds, -, hrest, rfl⟩ := List.forall₂_cons_left_iff.1 hds
    obtain ⟨cs, hcs, hsub⟩ := ih hrest
    exact ⟨cs, hcs, hsub.cons d⟩
  | cons_cons y _ ih =>
    obtain ⟨d, ds, hd, hrest, rfl⟩ := List.forall₂_cons_left_iff.1 hds
    obtain ⟨cs, hcs, hsub⟩ := ih hrest
    exact ⟨d :: cs, .cons hd hcs, hsub.cons_cons d⟩

/-- A computation fails if its first step does, or what comes next. -/
theorem exists_error_bind_iff {α β ε : Type} {x : Except ε α} {k : α → Except ε β} {p : Prop}
    (hk : ∀ a, x = .ok a → ((∃ e, k a = .error e) ↔ p)) :
    (∃ e, x >>= k = .error e) ↔ (∃ e, x = .error e) ∨ p := by
  cases x with
  | error e => exact iff_of_true ⟨e, rfl⟩ (.inl ⟨e, rfl⟩)
  | ok a => exact (hk a rfl).trans (or_iff_right nofun).symm

/-- Computing something for some values fails if it does for one of them. -/
theorem exists_error_mapM_iff {α β ε : Type} {f : α → Except ε β} {xs : List α} :
    (∃ e, xs.mapM f = .error e) ↔ ∃ x ∈ xs, ∃ e, f x = .error e := by
  induction xs with
  | nil => simp [pure, Except.pure]
  | cons x xs ih =>
    rw [List.mapM_cons, List.exists_mem_cons_iff, ← ih]
    refine exists_error_bind_iff fun y _ => ?_
    rw [exists_error_bind_iff (p := False) fun ys _ => by simp [pure, Except.pure], or_false]

/-- **The first value that fails** decides how computing something for some values does. -/
theorem mapM_eq_error_iff {α β ε : Type} {f : α → Except ε β} {xs : List α} {e : ε} :
    xs.mapM f = .error e ↔ ∃ before x after, xs = before ++ x :: after ∧
      (∀ y ∈ before, ∃ b, f y = .ok b) ∧ f x = .error e := by
  induction xs with
  | nil => simp [pure, Except.pure]
  | cons x xs ih =>
    rw [List.mapM_cons]
    cases hx : f x with
    | error e' =>
      constructor
      · intro h
        obtain rfl : e' = e := Except.error.inj h
        exact ⟨[], x, xs, rfl, List.forall_mem_nil _, hx⟩
      · rintro ⟨before, y, after, hxs, hbefore, hy⟩
        cases before with
        | nil =>
          obtain ⟨rfl, -⟩ := List.cons.inj hxs
          rw [Except.error.inj (hx.symm.trans hy)]
          rfl
        | cons z before =>
          obtain ⟨b, hb⟩ := hbefore z List.mem_cons_self
          obtain ⟨rfl, -⟩ := List.cons.inj hxs
          exact nomatch hx.symm.trans hb
    | ok b =>
      have hrest : (do let ys ← xs.mapM f; return b :: ys) = .error e ↔
          xs.mapM f = .error e := by
        cases xs.mapM f with
        | error e' => exact .rfl
        | ok ys => exact iff_of_false nofun nofun
      refine (hrest.trans ih).trans ⟨?_, ?_⟩
      · rintro ⟨before, y, after, rfl, hbefore, hy⟩
        exact ⟨x :: before, y, after, rfl, List.forall_mem_cons.2 ⟨⟨b, hx⟩, hbefore⟩, hy⟩
      · rintro ⟨before, y, after, hxs, hbefore, hy⟩
        cases before with
        | nil =>
          obtain ⟨rfl, -⟩ := List.cons.inj hxs
          exact nomatch hx.symm.trans hy
        | cons z before =>
          exact ⟨before, y, after, (List.cons.inj hxs).2, (List.forall_mem_cons.1 hbefore).2, hy⟩

/-- If a function has at most one value on a list, the first one is the same in any order. -/
theorem findSome?_eq_of_perm {α β : Type} {f : α → Option β} {xs ys : List α} (h : xs.Perm ys)
    (hone : (xs.filterMap f).length ≤ 1) : xs.findSome? f = ys.findSome? f := by
  have hperm := h.filterMap f
  rw [← List.head?_filterMap, ← List.head?_filterMap]
  match hvalues : xs.filterMap f with
  | [] =>
    rw [hvalues] at hperm
    rw [hperm.nil_eq]
  | [b] =>
    rw [hvalues] at hperm
    rw [List.singleton_perm.1 hperm]
  | b :: c :: rest =>
    rw [hvalues] at hone
    exact absurd hone (by simp)

theorem exists_right_of_mem {α β : Type} {p : α → β → Prop} {xs : List α} {ys : List β} {x : α}
    (h : List.Forall₂ p xs ys) (hx : x ∈ xs) : ∃ y ∈ ys, p x y := by
  induction h with
  | nil => exact absurd hx List.not_mem_nil
  | cons hp _ ih =>
    rcases List.mem_cons.1 hx with rfl | hx
    · exact ⟨_, List.mem_cons_self, hp⟩
    · obtain ⟨y, hmem, hy⟩ := ih hx
      exact ⟨y, List.mem_cons_of_mem _ hmem, hy⟩

theorem exists_left_of_mem {α β : Type} {p : α → β → Prop} {xs : List α} {ys : List β} {y : β}
    (h : List.Forall₂ p xs ys) (hy : y ∈ ys) : ∃ x ∈ xs, p x y :=
  exists_right_of_mem h.flip hy

/-- Values with a partner each have a list of partners. -/
theorem exists_forall₂ {α β : Type} {p : α → β → Prop} {xs : List α}
    (h : ∀ x ∈ xs, ∃ y, p x y) : ∃ ys, List.Forall₂ p xs ys := by
  induction xs with
  | nil => exact ⟨[], .nil⟩
  | cons x xs ih =>
    obtain ⟨⟨y, hy⟩, hxs⟩ := List.forall_mem_cons.1 h
    obtain ⟨ys, hys⟩ := ih hxs
    exact ⟨y :: ys, .cons hy hys⟩

theorem countP_le_one {α : Type} {p : α → Bool} {xs : List α}
    (h : xs.Pairwise fun a b => p a = true → p b = false) : xs.countP p ≤ 1 := by
  induction xs with
  | nil => exact Nat.zero_le 1
  | cons a xs ih =>
    obtain ⟨ha, hxs⟩ := List.pairwise_cons.1 h
    rw [List.countP_cons]
    split
    · rename_i hpa
      have hzero : xs.countP p = 0 := List.countP_eq_zero.2 fun b hb => by
        rw [ha b hb hpa]
        exact Bool.false_ne_true
      exact Nat.le_of_eq (congrArg (· + 1) hzero)
    · exact ih hxs

theorem count_map_true {α : Type} (p : α → Bool) (xs : List α) :
    (xs.map p).count true = xs.countP p := by
  rw [List.count_eq_countP, List.countP_map]
  exact List.countP_congr fun x _ => by rw [Function.comp, beq_true]

/-- Counting members of a list is counting positions. -/
theorem countP_eq_card {α : Type} (p : α → Bool) (xs : List α) :
    xs.countP p = (Finset.univ.filter fun i : Fin xs.length => p xs[i] = true).card := by
  induction xs with
  | nil => rfl
  | cons x xs ih =>
    rw [List.countP_cons, ih, Nat.add_comm]
    exact (Fin.card_filter_univ_succ' fun i : Fin (x :: xs).length => p (x :: xs)[i] = true).symm

/-- At most one position: any two of them are the same. -/
theorem countP_le_one_iff {α : Type} {p : α → Bool} {xs : List α} : xs.countP p ≤ 1 ↔
    ∀ i j : Fin xs.length, p xs[i] = true → p xs[j] = true → i = j := by
  rw [countP_eq_card, Finset.card_le_one_iff]
  simp only [Finset.mem_filter_univ]

theorem countP_eq_one_iff {α : Type} {p : α → Bool} {xs : List α} : xs.countP p = 1 ↔
    ∃! i : Fin xs.length, p xs[i] = true := by
  rw [countP_eq_card, Finset.card_eq_one, Finset.singleton_iff_unique_mem]
  simp only [Finset.mem_filter_univ]

/-- A part of a list without repetitions is what the list has in common with it. -/
theorem filter_mem_of_sublist {α : Type} [DecidableEq α] {xs ys : List α} (h : xs.Sublist ys)
    (hnodup : ys.Nodup) : ys.filter (fun a => decide (a ∈ xs)) = xs := by
  induction h with
  | slnil => rfl
  | @cons xs ys a h ih =>
    obtain ⟨ha, hys⟩ := List.nodup_cons.1 hnodup
    rw [List.filter_cons_of_neg, ih hys]
    rw [decide_eq_true_iff]
    exact fun hmem => ha (h.subset hmem)
  | @cons_cons xs ys a h ih =>
    obtain ⟨ha, hys⟩ := List.nodup_cons.1 hnodup
    have hmem : decide (a ∈ a :: xs) = true := decide_eq_true List.mem_cons_self
    rw [List.filter_cons, if_pos hmem]
    refine congrArg (a :: ·) (Eq.trans (List.filter_congr fun b hb => ?_) (ih hys))
    refine decide_eq_decide.2 ⟨fun hmem => ?_, List.mem_cons_of_mem _⟩
    exact (List.mem_cons.1 hmem).resolve_left fun hba => ha (hba ▸ hb)

/-- Lists of truth values are equal if they are true in the same places. -/
theorem eq_of_true_iff {bs cs : List Bool} (hlen : bs.length = cs.length)
    (h : ∀ i, i < bs.length → (bs[i]? = some true ↔ cs[i]? = some true)) : bs = cs := by
  refine List.ext_getElem hlen fun i hi hi' => ?_
  have hiff := h i hi
  rw [List.getElem?_eq_getElem hi, List.getElem?_eq_getElem hi', Option.some.injEq,
    Option.some.injEq] at hiff
  exact Bool.eq_iff_iff.2 hiff

/-- Lists with the same beginning and the same end differ in the middle only. -/
theorem getElem?_replace_middle {α : Type} {xs ys zs ws : List α} {i : Nat}
    (hlen : ys.length = zs.length)
    (h : ∀ j, j < ys.length → i = xs.length + j → ys[j]? = zs[j]?) :
    (xs ++ (ys ++ ws))[i]? = (xs ++ (zs ++ ws))[i]? := by
  rcases Nat.lt_or_ge i xs.length with hlt | hge
  · rw [List.getElem?_append_left hlt, List.getElem?_append_left hlt]
  rw [List.getElem?_append_right hge, List.getElem?_append_right hge]
  rcases Nat.lt_or_ge (i - xs.length) ys.length with hlt | hge'
  · rw [List.getElem?_append_left hlt, List.getElem?_append_left (hlen ▸ hlt)]
    exact h _ hlt (by omega)
  · rw [List.getElem?_append_right hge', List.getElem?_append_right (hlen ▸ hge'), hlen]

end RouteSolver
