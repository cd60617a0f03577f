/-
# The path cube

`pathCube` fixes the variables on one path to the true constant. Which diagram it makes is said here
by what it fixes and by how it goes with the least complete model
(`Store.Reachable.pathCube_exact`): it is a conjunction of literals of different variables, on all
of which the function of the diagram depends; it entails the diagram; and its least model is the one
of the diagram, in whatever order the three are asked for.

One recursion does it without a list of the path: it goes down to the true constant, and puts the
literals on top of it on the way back (`PathRun`, `Store.Valid.pathRun_iff`).

A variable on the path is asked for by the diagram, and a diagram depends on every variable that it
asks for (`Store.Valid.dependsOn_of_asks`): its two children would be equal otherwise. The two
extractions meet in the least model, of which a function has only one.
-/

import RouteSolver.Proofs.Diagram.Reachable

namespace RouteSolver
namespace Diagram

/-- The function depends on variable `i`: its value there changes it somewhere. -/
def DependsOn (f : Valuation → Bool) (i : Nat) : Prop :=
  ∃ v : Valuation, f (v.set i true) ≠ f (v.set i false)

theorem Valuation.set_set (v : Valuation) (i : Nat) (b c : Bool) :
    (v.set i b).set i c = v.set i c := by
  funext j
  unfold Valuation.set
  split <;> rfl

theorem Valuation.set_comm {v : Valuation} {i j : Nat} {b c : Bool} (h : i ≠ j) :
    (v.set i b).set j c = (v.set j c).set i b := by
  funext k
  unfold Valuation.set
  grind

/-- The recursion along the least path, without a bound: it goes down in the store `s`, puts a
literal on top of what comes back from the child, and ends with the result `m` in the store `t`. -/
inductive PathRun : Store → Ref → Ref → Store → Prop
  | constant {s r} (hr : r.isConstant = true) : PathRun s r r s
  | low {s t u r below m} (hr : r.isConstant = false) (hlow : (s.node r).low ≠ .bot)
    (h : PathRun s (s.node r).low below t) (hask : ask (s.node r).level below .bot t = (m, u)) :
    PathRun s r m u
  | high {s t u r below m} (hr : r.isConstant = false) (hlow : (s.node r).low = .bot)
    (h : PathRun s (s.node r).high below t) (hask : ask (s.node r).level .bot below t = (m, u)) :
    PathRun s r m u

namespace Store

variable {s t z : Store} {r m w : Ref} {i n : Nat} {p : Assignment}

/-! ### The recursion along the path -/

theorem cube_leastPathWithin_low (hr : r.isConstant = false) (hlow : (s.node r).low ≠ .bot) :
    cube (s.leastPathWithin (n + 1) r) s =
      let below := cube (s.leastPathWithin n (s.node r).low) s
      ask (s.node r).level below.1 .bot below.2 := by
  rw [leastPathWithin, hr, if_neg Bool.false_ne_true]
  dsimp only
  rw [if_pos hlow]
  rfl

theorem cube_leastPathWithin_high (hr : r.isConstant = false) (hlow : (s.node r).low = .bot) :
    cube (s.leastPathWithin (n + 1) r) s =
      let below := cube (s.leastPathWithin n (s.node r).high) s
      ask (s.node r).level .bot below.1 below.2 := by
  rw [leastPathWithin, hr, if_neg Bool.false_ne_true]
  dsimp only
  rw [if_neg (not_not.2 hlow)]
  rfl

/-- The diagram has a path to the true constant, and it is found within the bound `n`. -/
structure HasPath (s : Store) (n : Nat) (r : Ref) : Prop where
  has : s.Has r
  ne_bot : r ≠ .bot
  id_le : r.id ≤ n

/-- A diagram that asks a question is not within the bound 0. -/
theorem HasPath.exists_eq_succ (h : s.HasPath n r) (hr : r.isConstant = false) :
    ∃ k, n = k + 1 :=
  Nat.exists_eq_succ_of_ne_zero fun hn => by
    have := h.id_le
    have := Ref.two_le_id hr
    omega

theorem HasPath.low (h : s.HasPath (n + 1) r) (hs : s.Valid) (hr : r.isConstant = false)
    (hlow : (s.node r).low ≠ .bot) : s.HasPath n (s.node r).low :=
  ⟨hs.has_low h.has hr, hlow,
    Nat.le_of_lt_succ (Nat.lt_of_lt_of_le (hs.proper r h.has hr).low_lt h.id_le)⟩

/-- Where the low child is false the high one is not, since they are different. -/
theorem HasPath.high (h : s.HasPath (n + 1) r) (hs : s.Valid) (hr : r.isConstant = false)
    (hlow : (s.node r).low = .bot) : s.HasPath n (s.node r).high :=
  ⟨hs.has_high h.has hr, fun hhigh => (hs.proper r h.has hr).low_ne_high (hlow.trans hhigh.symm),
    Nat.le_of_lt_succ (Nat.lt_of_lt_of_le (hs.proper r h.has hr).high_lt h.id_le)⟩

/-- **The recursion has a run**, to the cube of the least path. -/
theorem Valid.pathRun_cube (hs : s.Valid) (h : s.HasPath n r) :
    PathRun s r (cube (s.leastPathWithin n r) s).1 (cube (s.leastPathWithin n r) s).2 := by
  induction n generalizing r with
  | zero => exact absurd (congrArg Ref.mk (Nat.le_zero.1 h.id_le)) h.ne_bot
  | succ n ih =>
    cases hr : r.isConstant with
    | true =>
      obtain rfl : r = .top := (Ref.isConstant_iff.1 hr).resolve_left h.ne_bot
      exact .constant rfl
    | false =>
      by_cases hlow : (s.node r).low = .bot
      · rw [cube_leastPathWithin_high hr hlow]
        exact .high hr hlow (ih (h.high hs hr hlow)) rfl
      · rw [cube_leastPathWithin_low hr hlow]
        exact .low hr hlow (ih (h.low hs hr hlow)) rfl

/-- Every run is that one. -/
theorem Valid.cube_eq_of_pathRun (hs : s.Valid) (hrun : PathRun s r m t) (h : s.HasPath n r) :
    cube (s.leastPathWithin n r) s = (m, t) := by
  induction hrun generalizing n with
  | constant hr =>
    obtain rfl := (Ref.isConstant_iff.1 hr).resolve_left h.ne_bot
    cases n <;> rfl
  | low hr hlow _ hask ih =>
    obtain ⟨n, rfl⟩ := h.exists_eq_succ hr
    rw [cube_leastPathWithin_low hr hlow, ih (h.low hs hr hlow)]
    exact hask
  | high hr hlow _ hask ih =>
    obtain ⟨n, rfl⟩ := h.exists_eq_succ hr
    rw [cube_leastPathWithin_high hr hlow, ih (h.high hs hr hlow)]
    exact hask

/-- **The recursion along the path ends**, in exactly one way, with the path cube. -/
theorem Valid.pathRun_iff (hs : s.Valid) (h : s.Has r) :
    PathRun s r m t ↔ (pathCube r).run s = (m, t) := by
  by_cases hr : r = .bot
  · subst hr
    constructor
    · rintro (_ | hr | hr)
      · rfl
      · exact Bool.noConfusion hr
      · exact Bool.noConfusion hr
    · rintro ⟨⟩
      exact .constant rfl
  have hpath : s.HasPath r.id r := ⟨h, hr, Nat.le_refl _⟩
  have hcube : (pathCube r).run s = cube (s.leastPathWithin r.id r) s := by
    show pathCube r s = _
    rw [pathCube, if_neg hr]
    rfl
  rw [hcube]
  constructor
  · exact fun hrun => hs.cube_eq_of_pathRun hrun hpath
  · intro heq
    have hrun := hs.pathRun_cube hpath
    rwa [heq] at hrun

/-! ### What a diagram asks for -/

/-- The diagram asks for variable `i` at its root or further below. -/
inductive Asks (s : Store) : Ref → Nat → Prop
  | root {r : Ref} (hr : r.isConstant = false) : Asks s r (s.node r).level
  | low {r : Ref} {i : Nat} (hr : r.isConstant = false) (h : Asks s (s.node r).low i) : Asks s r i
  | high {r : Ref} {i : Nat} (hr : r.isConstant = false) (h : Asks s (s.node r).high i) : Asks s r i

/-- A diagram depends on the variable that its root asks for. -/
theorem Valid.dependsOn_level (hs : s.Valid) (h : s.Has r) (hr : r.isConstant = false) :
    DependsOn (s.eval r) (s.node r).level := by
  by_contra hsame
  refine (hs.proper r h hr).low_ne_high ?_
  refine hs.eq_of_eval_eq (hs.has_low h hr) (hs.has_high h hr) fun v => ?_
  rw [hs.eval_low h hr, hs.eval_high h hr]
  by_contra hne
  exact hsame ⟨v, Ne.symm hne⟩

/-- What a child depends on, its parent depends on: the variable of the parent is another one, so it
can be set to lead to the child. -/
theorem Valid.dependsOn_of_child (hs : s.Valid) (h : s.Has r) (hr : r.isConstant = false) {b : Bool}
    {c : Ref} (hc : c = if b then (s.node r).high else (s.node r).low)
    (hd : DependsOn (s.eval c) i) : DependsOn (s.eval r) i := by
  have hchild : ∀ v : Valuation, s.eval c v = s.eval r (v.set (s.node r).level b) := by
    intro v
    cases b with
    | false => rw [hc]; exact hs.eval_low h hr v
    | true => rw [hc]; exact hs.eval_high h hr v
  obtain ⟨v, hv⟩ := hd
  have hne : i ≠ (s.node r).level := by
    rintro rfl
    rw [hchild, hchild] at hv
    exact hv (by rw [Valuation.set_set, Valuation.set_set])
  refine ⟨v.set (s.node r).level b, ?_⟩
  rwa [Valuation.set_comm (Ne.symm hne), Valuation.set_comm (Ne.symm hne), ← hchild, ← hchild]

/-- **A diagram depends on every variable that it asks for.** -/
theorem Valid.dependsOn_of_asks (hs : s.Valid) (h : s.Has r) (hi : s.Asks r i) :
    DependsOn (s.eval r) i := by
  induction hi with
  | root hr => exact hs.dependsOn_level h hr
  | low hr _ ih => exact hs.dependsOn_of_child h hr (b := false) rfl (ih (hs.has_low h hr))
  | high hr _ ih => exact hs.dependsOn_of_child h hr (b := true) rfl (ih (hs.has_high h hr))

/-- What a diagram depends on has been named. -/
theorem Valid.lt_of_dependsOn (hs : s.Valid) (h : s.Has r) (hd : DependsOn (s.eval r) i) :
    i < s.variableCount := by
  by_contra hi
  obtain ⟨v, hv⟩ := hd
  refine hv (hs.eval_congr h fun j hj => ?_)
  rw [Valuation.set_of_ne (by omega), Valuation.set_of_ne (by omega)]

/-- The least path only has variables that the diagram asks for. -/
theorem asks_of_mem_leastPathWithin {q : Nat × Bool} (hq : q ∈ s.leastPathWithin n r) :
    s.Asks r q.1 := by
  induction n generalizing r with
  | zero => exact absurd hq List.not_mem_nil
  | succ n ih =>
    rw [leastPathWithin] at hq
    split at hq
    · exact absurd hq List.not_mem_nil
    rename_i hc
    rw [Bool.not_eq_true] at hc
    dsimp only at hq
    split at hq
    · rcases List.mem_cons.1 hq with rfl | hq
      · exact .root hc
      · exact .low hc (ih hq)
    · rcases List.mem_cons.1 hq with rfl | hq
      · exact .root hc
      · exact .high hc (ih hq)

/-! ### Completing a diagram -/

/-- Two cubes of one assignment are the same diagram. -/
theorem IsCube.unique (hs : s.Valid) (hm : s.IsCube m p) (hw : s.IsCube w p) : m = w :=
  hs.eq_of_eval_eq hm.has hw.has fun v => by
    rw [Bool.eq_iff_iff, hm.eval_iff, hw.eval_iff]

theorem IsCube.ne_bot (h : s.IsCube m p) : m ≠ .bot := by
  rintro rfl
  exact Bool.noConfusion h.isLeastModel_fill.holds

/-- At some time before the store `z`, when `n` variables had been named, the least model of `r` was
asked for, and `w` was the answer. -/
def Completed (z : Store) (n : Nat) (r w : Ref) : Prop :=
  ∃ x : Store, x.Reachable ∧ x.Has r ∧ x.variableCount = n ∧ ((leastModel r).run x).1 = w ∧
    ((leastModel r).run x).2 ≤ z

/-- Every call is answered. -/
theorem Reachable.completed (hs : s.Reachable) (h : s.Has r) :
    ((leastModel r).run s).2.Completed s.variableCount r ((leastModel r).run s).1 :=
  ⟨s, hs, h, rfl, rfl, le_rfl⟩

theorem Completed.mono (h : t.Completed n r w) (htz : t ≤ z) : z.Completed n r w := by
  obtain ⟨x, hx, hr, hn, hw, hle⟩ := h
  exact ⟨x, hx, hr, hn, hw, hle.trans htz⟩

/-- **The answer** is a cube over the named variables, for the least model of the function that `r`
denotes; and among the named variables are those that this function depends on. -/
theorem Completed.isCube {v : Valuation} (h : z.Completed n r w) (hr : r ≠ .bot)
    (hv : IsLeastModel (z.eval r) v) :
    z.IsCube w (.below n v) ∧ ∀ i, DependsOn (z.eval r) i → i < n := by
  obtain ⟨x, hx, hxr, rfl, rfl, hle⟩ := h
  obtain ⟨ht, hxt, u, hcube, hleast, -⟩ := yields_leastModel hxr.denotes hr hx.valid
  have heval : z.eval r = x.eval r := funext (hx.valid.eval_of_le (hxt.trans hle) hxr)
  rw [heval] at hv ⊢
  obtain rfl := hleast.unique hv
  exact ⟨hcube.mono ht hle, fun i hi => hx.valid.lt_of_dependsOn hxr hi⟩

/-- A cube that has the least model of the diagram, and fixes only variables that the diagram
depends on, is entailed by the completion of the diagram, and has the same completion. -/
theorem Completed.isCube_eq (hz : z.Valid) (hm : z.IsCube m p) (hr : r ≠ .bot)
    (hleast : IsLeastModel (z.eval r) p.fill)
    (hdepends : ∀ i b, p i = some b → DependsOn (z.eval r) i) (hw : z.Completed n r w) :
    (∀ v, z.eval w v = true → z.eval m v = true) ∧ ∀ w', z.Completed n m w' → w' = w := by
  obtain ⟨hcube, hnamed⟩ := hw.isCube hr hleast
  constructor
  · intro v hv
    rw [hcube.eval_iff, Assignment.admits_below_iff] at hv
    rw [hm.eval_iff]
    intro i b hb
    rw [hv i (hnamed i (hdepends i b hb))]
    exact p.admits_fill i b hb
  · intro w' hw'
    exact (hw'.isCube hm.ne_bot hm.isLeastModel_fill).1.unique hz hcube

/-- **The path cube.** The recursion along the least path ends with it, in exactly one way. Of a
diagram without a model it is false. Of a diagram with a model it is a conjunction of literals of
different variables, so that it has a model as well; the diagram depends on all these variables, and
holds wherever the cube holds. The least models of the diagram and of its path cube, asked for in
whatever order while the same variables are named, are one cube, and this entails the path cube. -/
theorem Reachable.pathCube_exact (hs : s.Reachable) (h : s.Has r) :
    let m := ((pathCube r).run s).1
    let t := ((pathCube r).run s).2
    (∀ q u, PathRun s r q u ↔ q = m ∧ u = t) ∧
    ((∀ v, s.eval r v = false) → m = .bot) ∧
    ((∃ v, s.eval r v = true) →
      (∃ literals : List (Nat × Bool), (literals.map Prod.fst).Nodup ∧
        (∀ v : Valuation, t.eval m v = literals.all fun q => v q.1 == q.2) ∧
        ∀ q ∈ literals, DependsOn (s.eval r) q.1) ∧
      (∃ v, t.eval m v = true) ∧
      (∀ v, t.eval m v = true → s.eval r v = true) ∧
      ∀ (z : Store) (n : Nat) (w : Ref), z.Reachable → t ≤ z → z.Completed n r w →
        (∀ v, z.eval w v = true → z.eval m v = true) ∧
        ∀ w', z.Completed n m w' → w' = w) := by
  intro m t
  have hv := hs.valid
  refine ⟨fun q u => ?_, fun hfalse => ?_, fun ⟨v, hrv⟩ => ?_⟩
  · rw [hv.pathRun_iff h, Prod.ext_iff]
    exact and_congr eq_comm eq_comm
  · have hr : r = .bot := by
      by_contra hr
      obtain ⟨v, htrue⟩ := hv.exists_eval_eq_true h hr
      exact Bool.noConfusion ((hfalse v).symm.trans htrue)
    subst hr
    rfl
  have hr : r ≠ .bot := by
    rintro rfl
    exact Bool.noConfusion hrv
  have hasc := hv.ascending_leastPath h hr
  obtain ⟨ht, hst, hcube⟩ : t.Valid ∧ s ≤ t ∧ t.IsCube m (assignmentOf (s.leastPath r)) :=
    yields_cubeOfPath h hr hv
  have hdepends : ∀ q ∈ s.leastPath r, DependsOn (s.eval r) q.1 := fun q hq =>
    hv.dependsOn_of_asks h (asks_of_mem_leastPathWithin hq)
  refine ⟨⟨s.leastPath r, ?distinct, ?literals, hdepends⟩, ⟨_, hcube.isLeastModel_fill.holds⟩,
    ?entails, ?completed⟩
  case distinct => exact List.pairwise_map.2 (hasc.imp Nat.ne_of_lt)
  case literals =>
    intro v
    rw [Bool.eq_iff_iff, hcube.eval_iff, hasc.admits_iff, List.all_eq_true]
    exact forall₂_congr fun q _ => beq_iff_eq.symm
  case entails => exact fun v hmv => hv.eval_of_admits_leastPath h hr ((hcube.eval_iff v).1 hmv)
  case completed =>
    intro z n w hz htz hw
    have heval : z.eval r = s.eval r := funext (hv.eval_of_le (hst.trans htz) h)
    refine hw.isCube_eq hz.valid (hcube.mono ht htz) hr ?_ fun i b hb => ?_
    · exact heval ▸ hv.isLeastModel_leastPath h hr
    · exact heval ▸ hdepends (i, b) (hasc.lookup_eq_some_iff.1 hb)

/-- "One of the first two variables." -/
def oneOfTwo : Build Ref := do disj (← positive 0) (← positive 1)

theorem reachable_oneOfTwo : (oneOfTwo .empty).2.Reachable ∧
    (oneOfTwo .empty).2.Denotes (oneOfTwo .empty).1 fun v => v 0 || v 1 := by
  have hfirst : (positive 0 .empty).2.Reachable := .step (.positive 0) .empty nofun
  have hsecond : (positive 1 (positive 0 .empty).2).2.Reachable :=
    .step (.positive 1) hfirst nofun
  obtain ⟨-, -, hx, -⟩ := yields_positive 0 valid_empty
  obtain ⟨-, hle, hy, -⟩ := yields_positive 1 hfirst.valid
  have hx' := hx.mono hfirst.valid hle
  refine ⟨.step (.disj _ _) hsecond ?_, (yields_disj hx' hy hsecond.valid).2.2⟩
  exact List.forall_mem_cons.2 ⟨hx'.has, List.forall_mem_singleton.2 hy.has⟩

/-- "One of two variables" and its path cube are completed one after the other, to one cube, which
entails the path cube. The path cube of the false diagram is false. -/
theorem pathCube_exact_oneOfTwo :
    let either := oneOfTwo.run .empty
    let cube := (pathCube either.1).run either.2
    let model := (leastModel either.1).run cube.2
    let again := (leastModel cube.1).run model.2
    either.2.Reachable ∧ either.2.Has either.1 ∧ (∃ v, either.2.eval either.1 v = true) ∧
      ((pathCube .bot).run either.2).1 = .bot ∧
      (∀ v : Valuation, cube.2.eval cube.1 v = true → v 0 = true ∨ v 1 = true) ∧
      again.2.Reachable ∧ cube.2 ≤ again.2 ∧
      again.2.Completed cube.2.variableCount either.1 model.1 ∧
      again.2.Completed cube.2.variableCount cube.1 again.1 ∧ again.1 = model.1 := by
  intro either cube model again
  obtain ⟨hs, hr⟩ : either.2.Reachable ∧ either.2.Denotes either.1 fun v => v 0 || v 1 :=
    reachable_oneOfTwo
  obtain ⟨ht, hst, hm⟩ := hs.run (.pathCube either.1) (List.forall_mem_singleton.2 hr.has)
  have hrt := hr.has.mono hst
  obtain ⟨hu, htu, -⟩ := ht.run (.leastModel either.1) (List.forall_mem_singleton.2 hrt)
  have hmu := hm.mono htu
  obtain ⟨hz, huz, -⟩ := hu.run (.leastModel cube.1) (List.forall_mem_singleton.2 hmu)
  have hmodel : again.2.Completed cube.2.variableCount either.1 model.1 :=
    (ht.completed hrt).mono huz
  have hagain : again.2.Completed cube.2.variableCount cube.1 again.1 :=
    variableCount_leastModel either.1 cube.2 ▸ hu.completed hmu
  have hsat : ∃ v, either.2.eval either.1 v = true := ⟨fun _ => true, hr.eval_eq _⟩
  obtain ⟨-, hfalse, -⟩ := hs.pathCube_exact hs.valid.has_bot
  obtain ⟨-, -, hexact⟩ := hs.pathCube_exact hr.has
  obtain ⟨-, -, hentails, hcompleted⟩ := hexact hsat
  obtain ⟨-, hsame⟩ := hcompleted again.2 _ model.1 hz (htu.trans huz) hmodel
  refine ⟨hs, hr.has, hsat, hfalse fun _ => rfl, fun v hv => ?_, hz, htu.trans huz, hmodel, hagain,
    hsame _ hagain⟩
  have htrue := hentails v hv
  rwa [hr.eval_eq, Bool.or_eq_true] at htrue

end Store
end Diagram
end RouteSolver
