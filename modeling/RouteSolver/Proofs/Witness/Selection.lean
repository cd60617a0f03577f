/-
# Reading fields off a cube

A cube entails a variable exactly when its filling has the variable true (`map_entails`), so every
decoder is a function of the blocks of that filling: lists are the items that these pick (`pick`).

Where a block has at most one true bit, what has been picked gives that block back when it is
encoded again (`exists_atMostOne_names`).
-/

import RouteSolver.Proofs.Diagram.Reading
import RouteSolver.Proofs.Encoding.Route
import RouteSolver.Witness.Decoding

namespace RouteSolver

open Diagram

theorem nameFlags_injective {names : List String} {o o' : Option String}
    (ho : ∀ n ∈ o, n ∈ names) (ho' : ∀ n ∈ o', n ∈ names)
    (h : nameFlags names o = nameFlags names o') : o = o' := by
  have hflag : ∀ n ∈ names, (o = some n ↔ o' = some n) := fun n hn =>
    decide_eq_decide.1 (List.map_inj_left.1 h n hn)
  cases o with
  | some n => exact ((hflag n (ho n rfl)).1 rfl).symm
  | none =>
    cases o' with
    | none => rfl
    | some n => exact (hflag n (ho' n rfl)).2 rfl

/-! ### What is picked from a list -/

/-- The items from number `index` on whose bits are true, with their numbers. -/
def pick {α : Type} (index : Nat) : List α → List Bool → List (Nat × α)
  | a :: as, b :: bs => if b then (index, a) :: pick (index + 1) as bs else pick (index + 1) as bs
  | _, _ => []

section
variable {α : Type} {items : List α} {bs : List Bool}

theorem mem_pick {index i : Nat} {a : α} : (i, a) ∈ pick index items bs ↔
    ∃ j, i = index + j ∧ items[j]? = some a ∧ bs[j]? = some true := by
  induction items generalizing index bs with
  | nil => simp [pick]
  | cons x xs ih =>
    cases bs with
    | nil => simp [pick]
    | cons b bs =>
      have hrest : (∃ j, i = index + j ∧ (x :: xs)[j]? = some a ∧ (b :: bs)[j]? = some true) ↔
          (i = index ∧ x = a ∧ b = true) ∨
            ∃ j, i = index + 1 + j ∧ xs[j]? = some a ∧ bs[j]? = some true := by
        constructor
        · rintro ⟨j, rfl, hx, hb⟩
          cases j with
          | zero => exact .inl ⟨rfl, Option.some.inj hx, Option.some.inj hb⟩
          | succ j => exact .inr ⟨j, by omega, hx, hb⟩
        · rintro (⟨rfl, rfl, rfl⟩ | ⟨j, rfl, hx, hb⟩)
          · exact ⟨0, rfl, rfl, rfl⟩
          · exact ⟨j + 1, by omega, hx, hb⟩
      rw [hrest, ← ih, pick]
      cases b with
      | true => simp [eq_comm]
      | false => simp

theorem mem_pick_zero {i : Nat} {a : α} :
    (i, a) ∈ pick 0 items bs ↔ items[i]? = some a ∧ bs[i]? = some true := by
  rw [mem_pick]
  constructor
  · rintro ⟨j, rfl, h⟩
    rwa [Nat.zero_add]
  · exact fun h => ⟨i, (Nat.zero_add i).symm, h⟩

/-- Items are picked in order. -/
theorem pick_ascending (index : Nat) (items : List α) (bs : List Bool) :
    ((pick index items bs).map (·.1)).Pairwise (· < ·) := by
  induction items generalizing index bs with
  | nil => exact .nil
  | cons a items ih =>
    cases bs with
    | nil => exact .nil
    | cons b bs =>
      rw [pick]
      split
      · refine List.pairwise_cons.2 ⟨fun i hi => ?_, ih (index + 1) bs⟩
        obtain ⟨⟨k, c⟩, hmem, rfl⟩ := List.mem_map.1 hi
        obtain ⟨j, rfl, -⟩ := mem_pick.1 hmem
        exact Nat.lt_of_lt_of_le (Nat.lt_succ_self index) (Nat.le_add_right _ j)
      · exact ih (index + 1) bs

/-- What a block of a valuation picks. -/
theorem mem_pick_block {v : Valuation} {first count i : Nat} {a : α} (h : items.length ≤ count) :
    (i, a) ∈ pick 0 items (block v first count) ↔ items[i]? = some a ∧ v (first + i) = true := by
  rw [mem_pick_zero]
  refine and_congr_right fun ha => ?_
  have hi := Nat.lt_of_lt_of_le (List.getElem?_eq_some_iff.1 ha).1 h
  rw [getElem?_block _ _ hi, Option.some.injEq]

theorem length_pick (index : Nat) (h : bs.length = items.length) :
    (pick index items bs).length = bs.count true := by
  induction items generalizing index bs with
  | nil => rw [List.length_eq_zero_iff.1 h]; rfl
  | cons x xs ih =>
    obtain ⟨b, bs, rfl⟩ := List.exists_cons_of_length_eq_add_one h
    have hrest : bs.length = xs.length := Nat.succ.inj h
    cases b with
    | true => rw [pick, if_pos rfl, List.length_cons, ih _ hrest, List.count_cons_self]
    | false => rw [pick, if_neg Bool.false_ne_true, ih _ hrest, List.count_cons_of_ne (by decide)]

/-- One flag picks one item. -/
theorem exists_pick_eq_singleton (index : Nat) (h : bs.length = items.length)
    (hcount : bs.count true = 1) : ∃ p, pick index items bs = [p] :=
  List.length_eq_one_iff.1 ((length_pick index h).trans hcount)

theorem map_pick (index : Nat) (f : α → Bool) :
    (pick index items (items.map f)).map (·.2) = items.filter f := by
  induction items generalizing index with
  | nil => rfl
  | cons x xs ih =>
    rw [List.map_cons, pick, List.filter_cons]
    split
    · rw [List.map_cons, ih]
    · exact ih _

/-- The names that are picked are those whose bits are true. -/
theorem map_contains_pick {names : List String} (hnodup : names.Nodup)
    (hlen : bs.length = names.length) :
    names.map (fun n => ((pick 0 names bs).map (·.2)).contains n) = bs := by
  refine eq_of_true_iff (by rw [List.length_map, hlen]) fun i hi => ?_
  rw [List.length_map] at hi
  rw [List.getElem?_map, List.getElem?_eq_getElem hi, Option.map_some, Option.some.injEq,
    List.contains_iff_mem, List.mem_map]
  constructor
  · rintro ⟨⟨j, n⟩, hj, rfl⟩
    obtain ⟨hname, hflag⟩ := mem_pick_zero.1 hj
    have hij := (List.getElem?_inj hi hnodup).1 ((List.getElem?_eq_getElem hi).trans hname.symm)
    exact hij ▸ hflag
  · exact fun hflag => ⟨_, mem_pick_zero.2 ⟨List.getElem?_eq_getElem hi, hflag⟩, rfl⟩

/-- At most one name is picked, and its flags are the block it has been picked by. -/
theorem exists_atMostOne_names {names : List String} (hnodup : names.Nodup) {bs : List Bool}
    (hlen : bs.length = names.length) (hcount : bs.count true ≤ 1) (part : DomainPart) :
    ∃ o : Option (Nat × String), Decoding.atMostOne part (pick 0 names bs) = .ok o ∧
      nameFlags names (o.map (·.2)) = bs ∧ ∀ q ∈ o, q.2 ∈ names := by
  have hpick := length_pick 0 hlen
  rcases Nat.le_one_iff_eq_zero_or_eq_one.1 hcount with hzero | hone
  · rw [hzero, List.length_eq_zero_iff] at hpick
    refine ⟨none, by rw [hpick]; rfl, ?_, nofun⟩
    rw [List.count_eq_zero] at hzero
    refine List.ext_getElem (by rw [nameFlags, List.length_map, hlen]) fun i hi hi' => ?_
    have hb : bs[i] = false := Bool.eq_false_iff.2 fun h => hzero (h ▸ List.getElem_mem hi')
    rw [hb]
    simp [nameFlags]
  · obtain ⟨a, ha, rfl⟩ := exists_eq_oneHot hnodup hlen hone
    rw [hone, List.length_eq_one_iff] at hpick
    obtain ⟨⟨i, b⟩, hpick⟩ := hpick
    have hmem : (i, b) ∈ pick 0 names (oneHot names a) := hpick ▸ List.mem_singleton_self _
    obtain ⟨hname, hflag⟩ := mem_pick_zero.1 hmem
    rw [oneHot, List.getElem?_map, hname, Option.map_some, Option.some.injEq,
      decide_eq_true_iff] at hflag
    subst hflag
    refine ⟨some (i, b), by rw [hpick]; rfl, ?_, fun q hq => Option.some.inj hq ▸ ha⟩
    refine List.map_congr_left fun n _ => decide_eq_decide.2 ?_
    rw [Option.map_some, Option.some.injEq, eq_comm]

end

/-! ### Fields under a cube -/

section
variable {s : Store} {m : Ref} {p : Assignment} (hs : s.Valid) (hm : s.IsCube m p)
  {xs : List Ref} {first count : Nat}
include hs hm

omit hs hm in
theorem heldFrom_eq {α : Type} (part : DomainPart) (index : Nat) {items : List α}
    (h : items.length ≤ xs.length) : Decoding.heldFrom s m part index items xs =
      .ok (pick index items (xs.map (s.entails m))) := by
  induction items generalizing index xs with
  | nil => rw [Decoding.heldFrom]; rfl
  | cons a items ih =>
    cases xs with
    | nil => exact absurd h (Nat.not_succ_le_zero _)
    | cons x xs =>
      rw [Decoding.heldFrom, ih _ (Nat.le_of_succ_le_succ h), List.map_cons, pick]
      rfl

omit hs hm in
/-- An item without a variable is found missing, whatever the model. -/
theorem heldFrom_eq_error {α : Type} (part : DomainPart) (index : Nat) {items : List α}
    (h : xs.length < items.length) : Decoding.heldFrom s m part index items xs =
      .error (.mismatch (.missingVariable part (index + xs.length))) := by
  induction items generalizing index xs with
  | nil => exact absurd h (Nat.not_lt_zero _)
  | cons a items ih =>
    cases xs with
    | nil => rfl
    | cons x xs =>
      rw [Decoding.heldFrom, ih _ (Nat.lt_of_succ_lt_succ h), List.length_cons,
        Nat.add_right_comm, Nat.add_assoc]
      rfl

omit hs hm in
/-- **What is held** is what the model entails, provided that every item has a variable. -/
theorem heldFrom_eq_ok_iff {α : Type} {part : DomainPart} {index : Nat} {items : List α}
    {ps : List (Nat × α)} : Decoding.heldFrom s m part index items xs = .ok ps ↔
      items.length ≤ xs.length ∧ pick index items (xs.map (s.entails m)) = ps := by
  rcases Nat.lt_or_ge xs.length items.length with hlt | hle
  · rw [heldFrom_eq_error part index hlt]
    exact iff_of_false nofun fun h => Nat.not_lt.2 h.1 hlt
  · rw [heldFrom_eq part index hle, Except.ok.injEq, and_iff_right hle]

theorem held_eq {α : Type} (part : DomainPart) {items : List α}
    (hx : s.LaysOut xs first count) (h : items.length ≤ count) :
    Decoding.held s m part items xs = .ok (pick 0 items (block p.fill first count)) := by
  rw [Decoding.held, heldFrom_eq part 0 (hx.length_eq.symm ▸ h), map_entails hs hm hx]

omit hs hm in
theorem entailedItems_eq_pick {α : Type} (items : List α) (xs : List Ref) (index : Nat) :
    Decoding.entailedItems s m items xs =
      (pick index items (xs.map (s.entails m))).map (·.2) := by
  rw [Decoding.entailedItems]
  induction items generalizing xs index with
  | nil => rfl
  | cons a items ih =>
    cases xs with
    | nil => rfl
    | cons x xs =>
      rw [List.zip_cons_cons, List.filter_cons, List.map_cons, pick]
      cases s.entails m x with
      | true => exact congrArg (a :: ·) (ih xs (index + 1))
      | false => exact ih xs (index + 1)

theorem entailedItems_eq {α : Type} (items : List α) (hx : s.LaysOut xs first count) :
    Decoding.entailedItems s m items xs =
      (pick 0 items (block p.fill first count)).map (·.2) := by
  rw [entailedItems_eq_pick items xs 0, map_entails hs hm hx]

end
end RouteSolver
