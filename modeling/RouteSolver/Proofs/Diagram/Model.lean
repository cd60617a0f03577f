/-
# Cubes and models

A partial assignment fixes some variables. A diagram is its cube (`Store.IsCube`) when it is true
exactly where the fixed variables have their values. The path that `Store.leastPath` follows makes
its diagram true (`Store.Valid.eval_of_admits_leastPath`); `pathCube` and `leastModel` build the
cube of that path, the latter with all other named variables false.

With false before true, the path leads to the least of all valuations that make the diagram true
(`Store.Valid.isLeastModel_leastPath`). There is only one (`IsLeastModel.unique`), so what
`leastModel` finds depends on the function of the diagram alone.

What a cube entails is written on it: a variable is entailed exactly when the assignment fixes it to
true (`Store.IsCube.entails_variable_iff`).
-/

import RouteSolver.Diagram.Model
import RouteSolver.Proofs.Diagram.Entailment

namespace RouteSolver
namespace Diagram

/-- Values for some of the variables. -/
abbrev Assignment := Nat → Option Bool

namespace Assignment

/-- The valuation has the values that are fixed. -/
def Admits (p : Assignment) (v : Valuation) : Prop := ∀ i b, p i = some b → v i = b

/-- The valuation that fills the open variables with false. -/
def fill (p : Assignment) : Valuation := fun i => (p i).getD false

theorem admits_fill (p : Assignment) : p.Admits p.fill := fun i b h => by
  rw [fill, h, Option.getD_some]

/-- Only variables that are fixed to true are filled with true. -/
theorem eq_some_of_fill {p : Assignment} {i : Nat} (h : p.fill i = true) : p i = some true := by
  rw [fill, Option.getD_eq_iff] at h
  simpa using h

/-- A variable on which all admitted valuations agree is fixed. -/
theorem eq_some_of_admits {p : Assignment} {i : Nat} {b : Bool} (h : ∀ v, p.Admits v → v i = b) :
    p i = some b := by
  cases hp : p i with
  | some c =>
    rw [← h p.fill p.admits_fill, fill, hp, Option.getD_some]
  | none =>
    -- the other value is admitted as well
    have hset : p.Admits (p.fill.set i !b) := fun j c hj => by
      have hne : j ≠ i := by
        rintro rfl
        exact nomatch hp.symm.trans hj
      rw [Valuation.set_of_ne hne]
      exact p.admits_fill j c hj
    have hval := h _ hset
    rw [Valuation.set_self] at hval
    cases b <;> exact Bool.noConfusion hval

/-- The variables below `n` get the values of a valuation, the others stay open. -/
def below (n : Nat) (w : Valuation) : Assignment := fun i => if i < n then some (w i) else none

theorem admits_below_iff {n : Nat} {v w : Valuation} :
    (below n w).Admits v ↔ ∀ i, i < n → v i = w i := by
  constructor
  · exact fun h i hi => h i _ (if_pos hi)
  · intro h i b hb
    rw [below] at hb
    split at hb
    · rename_i hi
      exact (h i hi).trans (Option.some.inj hb)
    · nomatch hb

/-- A valuation that is false from `n` on is what its values below `n` are filled to. -/
theorem fill_below {n : Nat} {w : Valuation} (h : ∀ i, n ≤ i → w i = false) :
    (below n w).fill = w := by
  funext i
  rw [fill, below]
  split
  · rfl
  · rename_i hi
    exact (h i (Nat.le_of_not_lt hi)).symm

end Assignment

/-! ### Least models -/

/-- Where the two valuations differ for the first time, the first one is false. -/
def Valuation.NoLater (w v : Valuation) : Prop :=
  ∀ i, (∀ j, j < i → w j = v j) → w i = true → v i = true

/-- The function is true of the valuation, and of none before it. -/
structure IsLeastModel (f : Valuation → Bool) (w : Valuation) : Prop where
  holds : f w = true
  noLater : ∀ v, f v = true → w.NoLater v

/-- **A function has one least model** at most. -/
theorem IsLeastModel.unique {f : Valuation → Bool} {w v : Valuation} (h : IsLeastModel f w)
    (k : IsLeastModel f v) : w = v := by
  funext i
  induction i using Nat.strongRecOn with
  | ind i ih =>
    have hle := h.noLater v k.holds i ih
    have hge := k.noLater w h.holds i fun j hj => (ih j hj).symm
    exact Bool.eq_iff_iff.2 ⟨hle, hge⟩

/-- A least model is minimal: the function is false once some of its variables are made false. -/
theorem IsLeastModel.eq_of_le {f : Valuation → Bool} {w v : Valuation} (h : IsLeastModel f w)
    (hv : f v = true) (hle : ∀ i, v i = true → w i = true) : v = w := by
  funext i
  induction i using Nat.strongRecOn with
  | ind i ih =>
    have hge := h.noLater v hv i fun j hj => (ih j hj).symm
    exact Bool.eq_iff_iff.2 ⟨hle i, hge⟩

/-- A list of variables with their values, in ascending order. -/
abbrev Ascending (path : List (Nat × Bool)) : Prop := path.Pairwise fun p q => p.1 < q.1

theorem Ascending.lookup_eq_some_iff {path : List (Nat × Bool)} (h : Ascending path) {i : Nat}
    {b : Bool} : path.lookup i = some b ↔ (i, b) ∈ path := by
  induction path with
  | nil => simp
  | cons q rest ih =>
    obtain ⟨hq, hrest⟩ := List.pairwise_cons.1 h
    obtain ⟨j, c⟩ := q
    rw [List.lookup_cons, List.mem_cons, Prod.mk.injEq]
    by_cases hij : i = j
    · subst hij
      rw [beq_self_eq_true, Option.some.injEq, eq_comm]
      exact ⟨fun hb => .inl ⟨rfl, hb⟩, fun hb => hb.elim (·.2) fun hm =>
        absurd (hq _ hm) (Nat.lt_irrefl _)⟩
    · rw [beq_eq_false_iff_ne.2 hij, ih hrest]
      exact (or_iff_right fun hb => hij hb.1).symm

/-- The assignment that a list of variables with values stands for. -/
def assignmentOf (path : List (Nat × Bool)) : Assignment := fun i => path.lookup i

theorem Ascending.admits_iff {path : List (Nat × Bool)} (h : Ascending path) {v : Valuation} :
    (assignmentOf path).Admits v ↔ ∀ q ∈ path, v q.1 = q.2 :=
  ⟨fun hv q hq => hv q.1 q.2 (h.lookup_eq_some_iff.2 hq),
    fun hv i b hb => hv (i, b) (h.lookup_eq_some_iff.1 hb)⟩

namespace Store

variable {s t : Store} {r m x : Ref} {f : Valuation → Bool} {p : Assignment}

/-- The diagram is the cube of the assignment. -/
structure IsCube (s : Store) (m : Ref) (p : Assignment) : Prop where
  has : s.Has m
  eval_iff : ∀ v, s.eval m v = true ↔ p.Admits v

theorem IsCube.mono (h : s.IsCube m p) (hs : s.Valid) (hst : s ≤ t) : t.IsCube m p :=
  ⟨h.has.mono hst, fun v => by rw [hs.eval_of_le hst h.has]; exact h.eval_iff v⟩

/-- A diagram that asks listed variables for listed values, and nothing else, is a cube. -/
theorem Denotes.isCube {path : List (Nat × Bool)} (hasc : Ascending path)
    (h : s.Denotes m fun v => path.all fun q => v q.1 == q.2) : s.IsCube m (assignmentOf path) := by
  refine ⟨h.has, fun v => ?_⟩
  rw [h.eval_eq, List.all_eq_true, hasc.admits_iff]
  exact forall₂_congr fun q _ => beq_iff_eq

/-- The diagram is the cube of values under which the function is true, whatever the other
variables are. -/
def IsModelOf (s : Store) (m : Ref) (f : Valuation → Bool) : Prop :=
  ∃ p : Assignment, s.IsCube m p ∧ ∀ v, p.Admits v → f v = true

theorem IsModelOf.has (h : s.IsModelOf m f) : s.Has m := by
  obtain ⟨_, hm, -⟩ := h
  exact hm.has

/-- With its open variables false a cube has its least model. -/
theorem IsCube.isLeastModel_fill (h : s.IsCube m p) : IsLeastModel (s.eval m) p.fill where
  holds := (h.eval_iff _).2 p.admits_fill
  noLater v hv i _ hi := (h.eval_iff v).1 hv i true (Assignment.eq_some_of_fill hi)

/-- **A cube entails** what holds of all valuations that it admits. -/
theorem IsCube.entails_iff (h : s.IsCube m p) (hs : s.Valid) (hx : s.Denotes x f) :
    s.entails m x = true ↔ ∀ v, p.Admits v → f v = true := by
  rw [hs.entails_iff h.has.denotes hx]
  exact forall_congr' fun v => by rw [h.eval_iff]

/-- **A cube entails a variable** exactly when it fixes it to true. -/
theorem IsCube.entails_variable_iff (h : s.IsCube m p) (hs : s.Valid) {i : Nat}
    (hx : s.Denotes x fun v => v i) : s.entails m x = true ↔ p i = some true := by
  rw [h.entails_iff hs hx]
  constructor
  · exact fun hall => Assignment.eq_some_of_fill (hall _ p.admits_fill)
  · exact fun hp v hv => hv i true hp

/-- Filled with false, the assignment gives a variable the value that its cube entails for it. -/
theorem IsCube.entails_variable (h : s.IsCube m p) (hs : s.Valid) {i : Nat}
    (hx : s.Denotes x fun v => v i) : s.entails m x = s.eval x p.fill := by
  rw [Bool.eq_iff_iff, h.entails_variable_iff hs hx, hx.eval_eq, Assignment.fill]
  cases p i with
  | none => exact ⟨nofun, fun hb => Bool.noConfusion hb⟩
  | some b => exact ⟨Option.some.inj, congrArg some⟩

/-! ### The least path -/

/-- The variables from `i` on with their values, in ascending order, make the diagram true. -/
structure Satisfies (s : Store) (r : Ref) (i : Nat) (path : List (Nat × Bool)) : Prop where
  ascending : Ascending path
  bounds : ∀ q ∈ path, i ≤ q.1 ∧ q.1 < s.variableCount
  eval : ∀ v : Valuation, (∀ q ∈ path, v q.1 = q.2) → s.eval r v = true

/-- A path through a child goes on from the node above it. -/
theorem Satisfies.cons (hs : s.Valid) (h : s.Has r) (hc : r.isConstant = false) {i : Nat}
    (hi : s.StartsAt i r) {b : Bool} {path : List (Nat × Bool)}
    (hpath : s.Satisfies (if b then (s.node r).high else (s.node r).low) ((s.node r).level + 1)
      path) : s.Satisfies r i (((s.node r).level, b) :: path) where
  ascending := List.pairwise_cons.2 ⟨fun q hq => (hpath.bounds q hq).1, hpath.ascending⟩
  bounds q hq := by
    have hle := hi hc
    rcases List.mem_cons.1 hq with rfl | hq
    · exact ⟨hle, (hs.proper r h hc).level_lt⟩
    · have hbounds := hpath.bounds q hq
      exact ⟨by omega, hbounds.2⟩
  eval v hv := by
    have hb : v (s.node r).level = b := hv _ List.mem_cons_self
    rw [hs.eval_node h hc, hb, ← apply_ite (s.eval · v)]
    exact hpath.eval v fun q hq => hv q (List.mem_cons_of_mem _ hq)

theorem Valid.satisfies_leastPathWithin (hs : s.Valid) (n : Nat) (hn : r.id ≤ n) (h : s.Has r)
    (hr : r ≠ .bot) {i : Nat} (hi : s.StartsAt i r) :
    s.Satisfies r i (s.leastPathWithin n r) := by
  induction n generalizing r i with
  | zero => exact absurd (congrArg Ref.mk (Nat.le_zero.1 hn)) hr
  | succ n ih =>
    rw [leastPathWithin]
    split
    · rename_i hc
      obtain rfl : r = .top := (Ref.isConstant_iff.1 hc).resolve_left hr
      exact ⟨.nil, fun q hq => absurd hq List.not_mem_nil, fun v _ => rfl⟩
    rename_i hc
    rw [Bool.not_eq_true] at hc
    have hp := hs.proper r h hc
    have hlowlt := hp.low_lt
    have hhighlt := hp.high_lt
    dsimp only
    split
    · rename_i hlow
      exact .cons hs h hc hi (ih (by omega) (hs.has_low h hc) hlow hp.low_startsAt)
    · rename_i hlow
      rw [not_not] at hlow
      have hhigh : (s.node r).high ≠ .bot := fun hh => hp.low_ne_high (hlow.trans hh.symm)
      exact .cons hs h hc hi (ih (by omega) (hs.has_high h hc) hhigh hp.high_startsAt)

theorem Valid.satisfies_leastPath (hs : s.Valid) (h : s.Has r) (hr : r ≠ .bot) :
    s.Satisfies r 0 (s.leastPath r) :=
  hs.satisfies_leastPathWithin _ (Nat.le_refl _) h hr fun _ => Nat.zero_le _

theorem Valid.ascending_leastPath (hs : s.Valid) (h : s.Has r) (hr : r ≠ .bot) :
    Ascending (s.leastPath r) := (hs.satisfies_leastPath h hr).ascending

theorem Valid.leastPath_lt (hs : s.Valid) (h : s.Has r) (hr : r ≠ .bot) :
    ∀ q ∈ s.leastPath r, q.1 < s.variableCount := fun q hq =>
  ((hs.satisfies_leastPath h hr).bounds q hq).2

/-- **The least path makes its diagram true**, whatever the variables off the path are. -/
theorem Valid.eval_of_admits_leastPath (hs : s.Valid) (h : s.Has r) (hr : r ≠ .bot)
    {v : Valuation} (hv : (assignmentOf (s.leastPath r)).Admits v) : s.eval r v = true :=
  (hs.satisfies_leastPath h hr).eval v ((hs.ascending_leastPath h hr).admits_iff.1 hv)

/-- Where the least path asks for true, the diagram leaves no choice: a valuation that makes it true
and goes along the path before goes along it there as well. -/
theorem Valid.leastPathWithin_forced (hs : s.Valid) (n : Nat) (hn : r.id ≤ n) (h : s.Has r)
    (hr : r ≠ .bot) {v : Valuation} (hv : s.eval r v = true) {i : Nat}
    (hi : (i, true) ∈ s.leastPathWithin n r)
    (hagree : ∀ q ∈ s.leastPathWithin n r, q.1 < i → v q.1 = q.2) : v i = true := by
  induction n generalizing r with
  | zero => exact absurd hi List.not_mem_nil
  | succ n ih =>
    rw [leastPathWithin] at hi hagree
    split at hi
    · exact absurd hi List.not_mem_nil
    rename_i hc
    rw [if_neg hc] at hagree
    rw [Bool.not_eq_true] at hc
    have hp := hs.proper r h hc
    have hlowlt := hp.low_lt
    have hhighlt := hp.high_lt
    rw [hs.eval_node h hc] at hv
    dsimp only at hi hagree
    split at hi
    · rename_i hlow
      rw [if_pos hlow] at hagree
      have hi := (List.mem_cons.1 hi).resolve_left fun heq => Bool.noConfusion (Prod.mk.inj heq).2
      have hbounds := (hs.satisfies_leastPathWithin n (by omega) (hs.has_low h hc) hlow
        hp.low_startsAt).bounds _ hi
      have hfalse : v (s.node r).level = false :=
        hagree _ List.mem_cons_self (Nat.lt_of_succ_le hbounds.1)
      rw [hfalse, if_neg Bool.false_ne_true] at hv
      exact ih (by omega) (hs.has_low h hc) hlow hv hi fun q hq =>
        hagree q (List.mem_cons_of_mem _ hq)
    · rename_i hlow
      rw [if_neg hlow] at hagree
      rw [not_not] at hlow
      -- the low child is false, so the variable has to be true
      have htrue : v (s.node r).level = true := by
        by_contra hfalse
        rw [if_neg hfalse, hlow] at hv
        exact Bool.noConfusion hv
      rcases List.mem_cons.1 hi with heq | hi
      · exact (Prod.mk.inj heq).1 ▸ htrue
      · rw [if_pos htrue] at hv
        exact ih (by omega) (hs.has_high h hc)
          (fun hhigh => hp.low_ne_high (hlow.trans hhigh.symm)) hv hi
          fun q hq => hagree q (List.mem_cons_of_mem _ hq)

/-- **The least path leads to the least model**: all variables off the path are false there. -/
theorem Valid.isLeastModel_leastPath (hs : s.Valid) (h : s.Has r) (hr : r ≠ .bot) :
    IsLeastModel (s.eval r) (assignmentOf (s.leastPath r)).fill where
  holds := hs.eval_of_admits_leastPath h hr (Assignment.admits_fill _)
  noLater v hv i hagree hi := by
    have hlookup := fun {j b} => (hs.ascending_leastPath h hr).lookup_eq_some_iff (i := j) (b := b)
    refine hs.leastPathWithin_forced _ (Nat.le_refl _) h hr hv ?_ fun q hq hlt => ?_
    · exact hlookup.1 (Assignment.eq_some_of_fill hi)
    · rw [← hagree q.1 hlt]
      exact Assignment.admits_fill _ _ _ (hlookup.2 hq)

end Store

/-! ### Building cubes -/

section
variable {s : Store} {r : Ref} {f : Valuation → Bool}

theorem yields_literalAnd {i : Nat} {b : Bool} {rest : Ref} (hi : i < s.variableCount)
    (hrest : s.Denotes rest f) (hf : DependsFrom (i + 1) f) :
    Yields s (literalAnd i b rest) fun q t => t.Denotes q fun v => v i == b && f v := by
  refine .of_valid fun hs => ?_
  rw [literalAnd]
  split
  · rename_i hb
    refine (yields_ask hi hs.denotes_bot hrest (dependsFrom_const _ _) hf).mono
      fun q t _ _ hq => hq.congr fun v => ?_
    cases v i <;> simp [hb]
  · rename_i hb
    refine (yields_ask hi hrest hs.denotes_bot hf (dependsFrom_const _ _)).mono
      fun q t _ _ hq => hq.congr fun v => ?_
    cases v i <;> simp [hb]

/-- The cube of a list is true where all listed variables have their listed values. -/
theorem yields_cube {path : List (Nat × Bool)} (hasc : Ascending path)
    (hlt : ∀ q ∈ path, q.1 < s.variableCount) :
    Yields s (cube path) fun m t => t.IsCube m (assignmentOf path) := by
  suffices H : Yields s (cube path) fun m t =>
      t.Denotes m fun v => path.all fun q => v q.1 == q.2 by
    exact H.mono fun m t _ _ hm => hm.isCube hasc
  induction path with
  | nil => exact .pure fun hs => hs.denotes_top
  | cons q rest ih =>
    obtain ⟨hq, hrest⟩ := List.pairwise_cons.1 hasc
    refine (ih hrest fun q hq => hlt q (List.mem_cons_of_mem _ hq)).bind fun below t hst _ hb => ?_
    refine yields_literalAnd
      (Nat.lt_of_lt_of_le (hlt q List.mem_cons_self) hst.variableCount_le) hb fun v w hvw => ?_
    rw [Bool.eq_iff_iff, List.all_eq_true, List.all_eq_true]
    exact forall₂_congr fun q' hq' => by rw [hvw q'.1 (hq q' hq')]

/-- The path cube is the cube of the least path. -/
theorem yields_cubeOfPath (h : s.Has r) (hr : r ≠ .bot) :
    Yields s (pathCube r) fun m t => t.IsCube m (assignmentOf (s.leastPath r)) := by
  rw [pathCube, if_neg hr]
  exact .get fun hs => yields_cube (hs.ascending_leastPath h hr) (hs.leastPath_lt h hr)

/-- **The path cube** of a satisfiable diagram fixes some variables so that the diagram holds; with
the others false it is the least model. -/
theorem yields_leastPathCube (h : s.Denotes r f) (hr : r ≠ .bot) :
    Yields s (pathCube r) fun m t => ∃ p : Assignment, t.IsCube m p ∧ IsLeastModel f p.fill ∧
      ∀ v, p.Admits v → f v = true := by
  refine .of_valid fun hs => ?_
  have hleast := hs.isLeastModel_leastPath h.has hr
  rw [funext h.eval_eq] at hleast
  refine (yields_cubeOfPath h.has hr).mono fun m t _ _ hm => ⟨_, hm, hleast, fun v hv => ?_⟩
  rw [← h.eval_eq]
  exact hs.eval_of_admits_leastPath h.has hr hv

theorem yields_pathCube (h : s.Denotes r f) (hr : r ≠ .bot) :
    Yields s (pathCube r) fun m t => t.IsModelOf m f :=
  (yields_leastPathCube h hr).mono fun _ _ _ _ ⟨p, hm, _, hf⟩ => ⟨p, hm, hf⟩

/-- Completing a path looks up the values of its variables and fills in false. -/
theorem completePath_eq {path : List (Nat × Bool)} (hasc : Ascending path) (first count : Nat)
    (hle : ∀ q ∈ path, first ≤ q.1) :
    completePath path first count =
      (List.range' first count).map fun i => (i, (assignmentOf path).fill i) := by
  have hnone : ∀ (path : List (Nat × Bool)) (first : Nat), (∀ q ∈ path, first < q.1) →
      (assignmentOf path).fill first = false := by
    intro path first h
    have : path.lookup first = none := List.lookup_eq_none_iff.2 fun q hq =>
      bne_iff_ne.2 (Nat.ne_of_lt (h q hq))
    rw [Assignment.fill, assignmentOf, this, Option.getD_none]
  induction count generalizing path first with
  | zero => rfl
  | succ count ih =>
    rw [List.range'_succ, List.map_cons]
    match path with
    | [] =>
      rw [completePath, ih .nil _ fun q hq => absurd hq List.not_mem_nil]
      rfl
    | (i, b) :: rest =>
      obtain ⟨hi, hrest⟩ := List.pairwise_cons.1 hasc
      rw [completePath]
      split
      · rename_i heq
        subst heq
        rw [ih hrest _ hi]
        congr 1
        · rw [Assignment.fill, assignmentOf, List.lookup_cons_self, Option.getD_some]
        · refine List.map_congr_left fun j hj => ?_
          have hij : i < j := (List.mem_range'_1.1 hj).1
          rw [Assignment.fill, Assignment.fill, assignmentOf, assignmentOf, List.lookup_cons,
            beq_eq_false_iff_ne.2 (Nat.ne_of_gt hij)]
      · rename_i hne
        have hlt : ∀ q ∈ (i, b) :: rest, first < q.1 := by
          have hfi : first < i := Nat.lt_of_le_of_ne (hle _ List.mem_cons_self) (Ne.symm hne)
          intro q hq
          rcases List.mem_cons.1 hq with rfl | hq
          · exact hfi
          · exact Nat.lt_trans hfi (hi q hq)
        rw [ih hasc _ hlt, hnone _ _ hlt]

/-- **An assignment** of variables that have been named has a cube. -/
theorem yields_cube_assignment {n : Nat} (hn : n ≤ s.variableCount) {p : Assignment}
    (hp : ∀ i, n ≤ i → p i = none) :
    Yields s (cube ((List.range' 0 n).filterMap fun i => (p i).map fun b => (i, b))) fun m t =>
      t.IsCube m p := by
  have hasc : Ascending ((List.range' 0 n).filterMap fun i => (p i).map fun b => (i, b)) := by
    have hrange : (List.range' 0 n).Pairwise (· < ·) := List.pairwise_lt_range'
    refine hrange.filterMap _ fun i j hij q hq q' hq' => ?_
    obtain ⟨-, -, rfl⟩ := Option.map_eq_some_iff.1 hq
    obtain ⟨-, -, rfl⟩ := Option.map_eq_some_iff.1 hq'
    exact hij
  have hmem : ∀ q ∈ (List.range' 0 n).filterMap fun i => (p i).map fun b => (i, b),
      q.1 < n ∧ p q.1 = some q.2 := by
    intro q hq
    obtain ⟨i, hi, hq⟩ := List.mem_filterMap.1 hq
    obtain ⟨b, hb, rfl⟩ := Option.map_eq_some_iff.1 hq
    exact ⟨by simpa using (List.mem_range'_1.1 hi).2, hb⟩
  refine (yields_cube hasc fun q hq => Nat.lt_of_lt_of_le (hmem q hq).1 hn).mono
    fun m t _ _ hm => ⟨hm.has, fun v => ?_⟩
  rw [hm.eval_iff, hasc.admits_iff]
  constructor
  · intro hv i b hb
    have hi : i < n := Nat.lt_of_not_le fun hle => nomatch hb.symm.trans (hp i hle)
    exact hv (i, b) (List.mem_filterMap.2 ⟨i, by simpa using hi, by rw [hb]; rfl⟩)
  · exact fun hv q hq => hv q.1 q.2 (hmem q hq).2

theorem ascending_below (n : Nat) (w : Valuation) :
    Ascending ((List.range' 0 n).map fun i => (i, w i)) :=
  List.pairwise_map.2 List.pairwise_lt_range'

theorem lt_of_mem_below {m n : Nat} (hn : n ≤ m) (w : Valuation) :
    ∀ q ∈ (List.range' 0 n).map fun i => (i, w i), q.1 < m := by
  intro q hq
  obtain ⟨i, hi, rfl⟩ := List.mem_map.1 hq
  have := (List.mem_range'_1.1 hi).2
  omega

/-- The cube that fixes all variables below a number. -/
theorem yields_cube_below {n : Nat} (hn : n ≤ s.variableCount) (w : Valuation) :
    Yields s (cube ((List.range' 0 n).map fun i => (i, w i))) fun m t =>
      t.IsCube m (Assignment.below n w) := by
  have hrange := ascending_below n w
  refine (yields_cube hrange (lt_of_mem_below hn w)).mono fun m t _ _ hm => ⟨hm.has, fun v => ?_⟩
  rw [hm.eval_iff, hrange.admits_iff, Assignment.admits_below_iff, List.forall_mem_map]
  refine forall_congr' fun i => ?_
  rw [List.mem_range'_1]
  exact ⟨fun hv hi => hv ⟨Nat.zero_le _, by omega⟩, fun hv hi => hv (by omega)⟩

/-- **The least model** of a satisfiable diagram fixes every named variable, to what it is in the
least valuation that makes the diagram true. -/
theorem yields_leastModel (h : s.Denotes r f) (hr : r ≠ .bot) :
    Yields s (leastModel r) fun m t => ∃ w : Valuation,
      t.IsCube m (Assignment.below s.variableCount w) ∧ IsLeastModel f w ∧
        ∀ i, s.variableCount ≤ i → w i = false := by
  rw [leastModel, if_neg hr]
  refine .get fun hs => ?_
  have hasc := hs.ascending_leastPath h.has hr
  have hleast := hs.isLeastModel_leastPath h.has hr
  rw [funext h.eval_eq] at hleast
  rw [completePath_eq hasc 0 s.variableCount fun _ _ => Nat.zero_le _]
  refine (yields_cube_below (Nat.le_refl _) _).mono fun m t _ _ hm =>
    ⟨_, hm, hleast, fun i hi => ?_⟩
  have hnone : (s.leastPath r).lookup i = none := List.lookup_eq_none_iff.2 fun q hq =>
    bne_iff_ne.2 (Nat.ne_of_gt (Nat.lt_of_lt_of_le (hs.leastPath_lt h.has hr q hq) hi))
  rw [Assignment.fill, assignmentOf, hnone, Option.getD_none]

theorem variableCount_ask (i : Nat) (low high : Ref) (s : Store) :
    (ask i low high s).2.variableCount = s.variableCount := by
  rw [ask]
  split
  · rfl
  · dsimp only
    split <;> rfl

/-- A literal names its variable and no other. -/
theorem variableCount_positive (i : Nat) (s : Store) :
    (positive i s).2.variableCount = max s.variableCount (i + 1) :=
  variableCount_ask i .bot .top { s with variableCount := max s.variableCount (i + 1) }

theorem variableCount_cube (path : List (Nat × Bool)) (s : Store) :
    (cube path s).2.variableCount = s.variableCount := by
  induction path with
  | nil => rfl
  | cons q rest ih =>
    have hliteral : ∀ (below : Ref) (t : Store),
        (literalAnd q.1 q.2 below t).2.variableCount = t.variableCount := by
      intro below t
      rw [literalAnd]
      split <;> exact variableCount_ask ..
    exact (hliteral (cube rest s).1 (cube rest s).2).trans ih

/-- Building a model names no variable. -/
theorem variableCount_leastModel (r : Ref) (s : Store) :
    (leastModel r s).2.variableCount = s.variableCount := by
  rw [leastModel]
  split
  · rfl
  · exact variableCount_cube _ s

/-- **The least model is complete**: it fixes every variable that has been named in the end. -/
theorem yields_completeModel (h : s.Denotes r f) (hf : ∃ v, f v = true) :
    Yields s (leastModel r) fun m t => ∃ w : Valuation,
      t.IsCube m (Assignment.below t.variableCount w) ∧
        IsLeastModel f (Assignment.below t.variableCount w).fill ∧
        ∀ v, (Assignment.below t.variableCount w).Admits v → f v = true := by
  intro hs
  have hsat := (h.isSatisfiable_iff hs).2 hf
  rw [Ref.isSatisfiable, decide_eq_true_iff] at hsat
  obtain ⟨ht, hst, w, hcube, hleast, hfalse⟩ := yields_leastModel h hsat hs
  have hcount := variableCount_leastModel r s
  refine ⟨ht, hst, w, hcount.symm ▸ hcube, ?_, fun v hv => ?_⟩
  · rwa [hcount, Assignment.fill_below hfalse]
  · -- the function does not depend on what has not been named
    rw [hcount, Assignment.admits_below_iff] at hv
    rw [← h.eval_eq, hs.eval_congr h.has hv, h.eval_eq]
    exact hleast.holds

end
end Diagram
end RouteSolver
