/-
# What the connectives denote

Negation and the binary connectives denote what their names say, whatever the tables of earlier
results hold (`yields_neg`, `yields_conj`, `yields_disj`, `yields_implies`). Over a list the early
stop at the absorbing constant does not show (`yields_conjAll`, `yields_disjAll`).

The recursions go from parents to children. Each is proved by induction on its bound, for all
functions at once; the cofactors of the operands denote the cofactors of their functions.
-/

import RouteSolver.Proofs.Diagram.Build

namespace RouteSolver
namespace Diagram

/-- The function with a fixed value for one variable. -/
def cofactor (f : Valuation → Bool) (i : Nat) (b : Bool) : Valuation → Bool :=
  fun v => f (v.set i b)

theorem cofactor_self (f : Valuation → Bool) (i : Nat) (v : Valuation) :
    cofactor f i (v i) v = f v := by
  refine congrArg f (funext fun j => ?_)
  by_cases hj : j = i
  · rw [hj, Valuation.set_self]
  · exact Valuation.set_of_ne hj

/-- A choice between cofactors of one function is that function. -/
theorem ite_cofactor (f : Valuation → Bool) (i : Nat) (v : Valuation) :
    (if v i then cofactor f i true v else cofactor f i false v) = f v := by
  have h := cofactor_self f i v
  cases hv : v i <;> rw [hv] at h <;> exact h

/-- A cofactor of a function of later variables depends on strictly later ones. -/
theorem DependsFrom.cofactor {i : Nat} {f : Valuation → Bool} (h : DependsFrom i f) (b : Bool) :
    DependsFrom (i + 1) (cofactor f i b) := by
  refine fun v w hvw => h _ _ fun j hj => ?_
  by_cases hji : j = i
  · rw [hji, Valuation.set_self, Valuation.set_self]
  · rw [Valuation.set_of_ne hji, Valuation.set_of_ne hji, hvw j (by omega)]

namespace Connective

theorem apply_comm (op : Connective) (x y : Bool) : op.apply x y = op.apply y x := by
  cases op <;> cases x <;> cases y <;> rfl

theorem apply_self (op : Connective) (x : Bool) : op.apply x x = x := by
  cases op <;> cases x <;> rfl

/-- The value that decides the result alone. -/
def absorbingValue : Connective → Bool
  | conj => false
  | disj => true

theorem apply_absorbing (op : Connective) (x : Bool) :
    op.apply op.absorbingValue x = op.absorbingValue := by
  cases op <;> cases x <;> rfl

theorem apply_neutral (op : Connective) (x : Bool) : op.apply (!op.absorbingValue) x = x := by
  cases op <;> cases x <;> rfl

theorem eval_absorbing (op : Connective) (s : Store) (v : Valuation) :
    s.eval op.absorbing v = op.absorbingValue := by cases op <;> rfl

theorem eval_neutral (op : Connective) (s : Store) (v : Valuation) :
    s.eval op.neutral v = !op.absorbingValue := by cases op <;> rfl

theorem apply_eval_of_absorbing (op : Connective) {s : Store} {a b : Ref} {v : Valuation}
    (h : a = op.absorbing ∨ b = op.absorbing) :
    op.apply (s.eval a v) (s.eval b v) = op.absorbingValue := by
  rcases h with rfl | rfl
  · rw [op.eval_absorbing, op.apply_absorbing]
  · rw [op.eval_absorbing, op.apply_comm, op.apply_absorbing]

theorem apply_eval_of_neutral (op : Connective) {s : Store} {a b : Ref} {v : Valuation}
    (h : a = op.neutral ∨ a = b) : op.apply (s.eval a v) (s.eval b v) = s.eval b v := by
  rcases h with rfl | rfl
  · rw [op.eval_neutral, op.apply_neutral]
  · rw [op.apply_self]

theorem isConstant_eq_false {op : Connective} {r : Ref} (ha : r ≠ op.absorbing)
    (hn : r ≠ op.neutral) : r.isConstant = false := by
  cases op
  · exact Ref.isConstant_eq_false_iff.2 ⟨ha, hn⟩
  · exact Ref.isConstant_eq_false_iff.2 ⟨hn, ha⟩

/-- The result of a connective on cofactors is the cofactor of its result. -/
theorem dependsFrom_apply (op : Connective) {i : Nat} {f g : Valuation → Bool}
    (hf : DependsFrom i f) (hg : DependsFrom i g) :
    DependsFrom i fun v => op.apply (f v) (g v) :=
  fun v w hvw => congrArg₂ op.apply (hf v w hvw) (hg v w hvw)

end Connective

section
variable {s : Store} {r a b : Ref} {f g : Valuation → Bool}

/-! ### Negation -/

/-- Nodes are not touched when the tables are written. -/
theorem Store.le_insertNegated (s : Store) (r q : Ref) :
    s ≤ { s with negated := s.negated.insert r q } :=
  ⟨Nat.le_refl _, fun _ _ => rfl, Nat.le_refl _⟩

theorem Store.le_insertCombined (s : Store) (key : Connective × Ref × Ref) (q : Ref) :
    s ≤ { s with combined := s.combined.insert key q } :=
  ⟨Nat.le_refl _, fun _ _ => rfl, Nat.le_refl _⟩

/-- A right result in the table of negation. -/
theorem Store.Valid.withNegated (hs : s.Valid) {q : Ref} (hr : s.Denotes r f)
    (hq : s.Denotes q fun v => !f v) :
    ({ s with negated := s.negated.insert r q } : Store).Valid := by
  refine hs.of_tables (s.le_insertNegated r q) rfl rfl (fun r' q' hq' => ?_)
    fun op a b q => hs.combined op a b q
  rw [Std.HashMap.getElem?_insert] at hq'
  split at hq'
  · rename_i heq
    obtain rfl := eq_of_beq heq
    obtain rfl := Option.some.inj hq'
    exact ⟨hr.has, hq.has, fun v => by rw [hq.eval_eq, hr.eval_eq]⟩
  · exact hs.negated r' q' hq'

theorem yields_negWithin (n : Nat) (hn : r.id < n) (h : s.Denotes r f) :
    Yields s (negWithin n r) fun q t => t.Denotes q fun v => !f v := by
  induction n generalizing s r f with
  | zero => exact absurd hn (Nat.not_lt_zero _)
  | succ n ih =>
    rw [negWithin]
    split
    · rename_i hr
      subst hr
      exact .pure fun hs => hs.denotes_top.congr fun v => by rw [← h.eval_eq]; rfl
    split
    · rename_i hr
      subst hr
      exact .pure fun hs => hs.denotes_bot.congr fun v => by rw [← h.eval_eq]; rfl
    rename_i hbot htop
    have hr := Ref.isConstant_eq_false_iff.2 ⟨hbot, htop⟩
    refine .get fun hs => ?_
    split
    · rename_i q hq
      refine .pure fun _ => ?_
      obtain ⟨-, hq, hv⟩ := hs.negated r q hq
      exact ⟨hq, fun v => by rw [hv, h.eval_eq]⟩
    refine .get fun hs => ?_
    have hp := hs.proper r h.has hr
    have hlow := (hs.has_low h.has hr).denotes
    have hhigh := (hs.has_high h.has hr).denotes
    refine (ih (by have := hp.low_lt; omega) hlow).bind fun low t hst ht htlow => ?_
    refine (ih (by have := hp.high_lt; omega) (hhigh.mono hs hst)).bind
      fun high u htu hu huhigh => ?_
    refine (yields_ask (Nat.lt_of_lt_of_le hp.level_lt (hst.trans htu).variableCount_le)
      (htlow.mono ht htu) huhigh
      (fun v w hvw => congrArg not (hs.dependsFrom hlow.has hp.low_startsAt v w hvw))
      (fun v w hvw => congrArg not (hs.dependsFrom hhigh.has hp.high_startsAt v w hvw))).bind
      fun q x hux hx hq => ?_
    have hsx : s ≤ x := (hst.trans htu).trans hux
    have hres : x.Denotes q fun v => !f v := hq.congr fun v => by
      rw [← h.eval_eq, hs.eval_node h.has hr]
      cases v (s.node r).level <;> rfl
    intro _
    have hxy := x.le_insertNegated r q
    exact ⟨hx.withNegated (h.mono hs hsx) hres, hxy, hres.mono hx hxy⟩

/-- **Negation denotes the opposite.** -/
theorem yields_neg (h : s.Denotes r f) :
    Yields s (neg r) fun q t => t.Denotes q fun v => !f v :=
  yields_negWithin _ (Nat.lt_succ_self _) h

/-! ### Binary connectives -/

/-- The cofactors of a diagram whose root is not above `i` denote the cofactors of its function. -/
theorem Store.Valid.denotes_cofactors (hs : s.Valid) (h : s.Denotes r f) (hr : r.isConstant = false)
    {i : Nat} (hi : i ≤ (s.node r).level) :
    s.Denotes (s.cofactors r i).1 (cofactor f i false) ∧
      s.Denotes (s.cofactors r i).2 (cofactor f i true) := by
  have hf : f = s.eval r := (funext h.eval_eq).symm
  subst hf
  rw [cofactors]
  split
  · rename_i heq
    subst heq
    exact ⟨⟨hs.has_low h.has hr, fun v => hs.eval_low h.has hr v⟩,
      ⟨hs.has_high h.has hr, fun v => hs.eval_high h.has hr v⟩⟩
  · have hd : DependsFrom (i + 1) (s.eval r) := hs.dependsFrom h.has fun _ => by omega
    exact ⟨⟨h.has, fun v => (hd.set v false).symm⟩, ⟨h.has, fun v => (hd.set v true).symm⟩⟩

/-- A function does not depend on variables before the one that the root of its diagram asks for. -/
theorem Store.Denotes.dependsFrom (h : s.Denotes r f) (hs : s.Valid) {i : Nat}
    (hi : i ≤ (s.node r).level) : DependsFrom i f := by
  have hf : s.eval r = f := funext h.eval_eq
  exact hf ▸ hs.dependsFrom h.has fun _ => hi

/-- Cofactors are no younger than their diagram, and older if its root asks for the variable. -/
theorem Store.Valid.cofactors_id_le (hs : s.Valid) (h : s.Has r) (hr : r.isConstant = false)
    (i : Nat) : (s.cofactors r i).1.id ≤ r.id ∧ (s.cofactors r i).2.id ≤ r.id ∧
      ((s.node r).level = i → (s.cofactors r i).1.id < r.id ∧ (s.cofactors r i).2.id < r.id) := by
  have hp := hs.proper r h hr
  have hlow := hp.low_lt
  have hhigh := hp.high_lt
  rw [cofactors]
  split
  · exact ⟨Nat.le_of_lt hlow, Nat.le_of_lt hhigh, fun _ => ⟨hlow, hhigh⟩⟩
  · rename_i hne
    exact ⟨Nat.le_refl _, Nat.le_refl _, fun heq => absurd heq hne⟩

/-- At least one of two diagrams is replaced by its children, because one of the roots asks for the
first variable of both. -/
theorem Store.Valid.cofactors_id_add_lt (hs : s.Valid) (ha : s.Has a) (hb : s.Has b)
    (hca : a.isConstant = false) (hcb : b.isConstant = false) {i : Nat}
    (hi : min (s.node a).level (s.node b).level = i) :
    (s.cofactors a i).1.id + (s.cofactors b i).1.id < a.id + b.id ∧
      (s.cofactors a i).2.id + (s.cofactors b i).2.id < a.id + b.id := by
  obtain ⟨ha0, ha1, halt⟩ := hs.cofactors_id_le ha hca i
  obtain ⟨hb0, hb1, hblt⟩ := hs.cofactors_id_le hb hcb i
  rcases Nat.le_total (s.node a).level (s.node b).level with hab | hab
  · have := halt (by omega)
    omega
  · have := hblt (by omega)
    omega

/-- A right result in the table of the connectives. -/
theorem Store.Valid.withCombined (hs : s.Valid) (op : Connective) {q : Ref} {a b : Ref}
    (ha : s.Denotes a f) (hb : s.Denotes b g) (hq : s.Denotes q fun v => op.apply (f v) (g v))
    {key : Connective × Ref × Ref} (hkey : key = (op, a, b) ∨ key = (op, b, a)) :
    ({ s with combined := s.combined.insert key q } : Store).Valid := by
  refine hs.of_tables (s.le_insertCombined key q) rfl rfl (fun r q => hs.negated r q)
    fun op' a' b' q' hq' => ?_
  rw [Std.HashMap.getElem?_insert] at hq'
  split at hq'
  · rename_i heq
    obtain rfl := eq_of_beq heq
    obtain rfl := Option.some.inj hq'
    rcases hkey with hkey | hkey <;> cases hkey
    · exact ⟨ha.has, hb.has, hq.has, fun v => by rw [hq.eval_eq, ha.eval_eq, hb.eval_eq]⟩
    · exact ⟨hb.has, ha.has, hq.has, fun v => by
        rw [hq.eval_eq, ha.eval_eq, hb.eval_eq, op.apply_comm]⟩
  · exact hs.combined op' a' b' q' hq'

/-- What the table says of two operands, in either order. -/
theorem Store.Valid.denotes_of_combined (hs : s.Valid) (op : Connective) {q : Ref}
    (ha : s.Denotes a f) (hb : s.Denotes b g) {key : Connective × Ref × Ref}
    (hkey : key = (op, a, b) ∨ key = (op, b, a)) (h : s.combined[key]? = some q) :
    s.Denotes q fun v => op.apply (f v) (g v) := by
  rcases hkey with rfl | rfl
  · obtain ⟨-, -, hq, hv⟩ := hs.combined op a b q h
    exact ⟨hq, fun v => by rw [hv, ha.eval_eq, hb.eval_eq]⟩
  · obtain ⟨-, -, hq, hv⟩ := hs.combined op b a q h
    exact ⟨hq, fun v => by rw [hv, ha.eval_eq, hb.eval_eq, op.apply_comm]⟩

/-- One operand that is the absorbing constant decides. -/
theorem Store.Valid.denotes_absorbing (hs : s.Valid) (op : Connective) (ha : s.Denotes a f)
    (hb : s.Denotes b g) (h : a = op.absorbing ∨ b = op.absorbing) :
    s.Denotes op.absorbing fun v => op.apply (f v) (g v) := by
  have hhas : s.Has op.absorbing := by
    cases op
    · exact hs.has_bot
    · exact hs.has_top
  refine ⟨hhas, fun v => ?_⟩
  rw [op.eval_absorbing, ← ha.eval_eq, ← hb.eval_eq, op.apply_eval_of_absorbing h]

/-- The first operand does not count if it is the neutral constant or the second one. -/
theorem Store.Denotes.apply_neutral (hb : s.Denotes b g) (op : Connective) (ha : s.Denotes a f)
    (h : a = op.neutral ∨ a = b) : s.Denotes b fun v => op.apply (f v) (g v) :=
  hb.congr fun v => by rw [← ha.eval_eq, ← hb.eval_eq, op.apply_eval_of_neutral h]

/-- Asking for a variable, where the children combine the cofactors of two functions of it and later
ones, combines the functions. -/
theorem yields_ask_apply (op : Connective) {i : Nat} {low high : Ref} (hi : i < s.variableCount)
    (hf : DependsFrom i f) (hg : DependsFrom i g)
    (hlow : s.Denotes low fun v => op.apply (cofactor f i false v) (cofactor g i false v))
    (hhigh : s.Denotes high fun v => op.apply (cofactor f i true v) (cofactor g i true v)) :
    Yields s (ask i low high) fun q t => t.Denotes q fun v => op.apply (f v) (g v) := by
  refine (yields_ask hi hlow hhigh (op.dependsFrom_apply (hf.cofactor _) (hg.cofactor _))
    (op.dependsFrom_apply (hf.cofactor _) (hg.cofactor _))).mono fun q t _ _ hq =>
      hq.congr fun v => ?_
  have hfv := ite_cofactor f i v
  have hgv := ite_cofactor g i v
  cases hv : v i <;> rw [hv] at hfv hgv <;> exact congrArg₂ op.apply hfv hgv

theorem yields_combineWithin (op : Connective) (n : Nat) (hn : a.id + b.id < n)
    (ha : s.Denotes a f) (hb : s.Denotes b g) :
    Yields s (combineWithin op n a b) fun q t => t.Denotes q fun v => op.apply (f v) (g v) := by
  induction n generalizing s a b f g with
  | zero => exact absurd hn (Nat.not_lt_zero _)
  | succ n ih =>
    rw [combineWithin]
    split
    · rename_i habs
      exact .pure fun hs => hs.denotes_absorbing op ha hb habs
    rename_i habs
    rw [not_or] at habs
    split
    · rename_i hone
      exact .pure fun _ => hb.apply_neutral op ha hone
    rename_i hone
    rw [not_or] at hone
    split
    · rename_i hneutral
      exact .pure fun _ => (ha.apply_neutral op hb (.inl hneutral)).congr fun v => op.apply_comm ..
    rename_i hneutral
    have hca : a.isConstant = false := Connective.isConstant_eq_false habs.1 hone.1
    have hcb : b.isConstant = false := Connective.isConstant_eq_false habs.2 hneutral
    dsimp only
    generalize hk : (if a.id ≤ b.id then (op, a, b) else (op, b, a)) = key
    have hkey : key = (op, a, b) ∨ key = (op, b, a) := by
      rw [← hk]
      split
      · exact .inl rfl
      · exact .inr rfl
    refine .get fun hs => ?_
    split
    · rename_i q hq
      exact .pure fun _ => hs.denotes_of_combined op ha hb hkey hq
    refine .get fun _ => .get fun _ => .get fun _ => ?_
    generalize hi : min (s.node a).level (s.node b).level = i
    have hia : i ≤ (s.node a).level := by omega
    have hib : i ≤ (s.node b).level := by omega
    obtain ⟨ha0, ha1⟩ := hs.denotes_cofactors ha hca hia
    obtain ⟨hb0, hb1⟩ := hs.denotes_cofactors hb hcb hib
    have hsum := hs.cofactors_id_add_lt ha.has hb.has hca hcb hi
    refine .get fun _ => ?_
    refine (ih (by omega) ha0 hb0).bind fun low t hst ht hlow => ?_
    refine (ih (by omega) (ha1.mono hs hst) (hb1.mono hs hst)).bind fun high u htu hu hhigh => ?_
    have hsu := hst.trans htu
    have hlevel := (hs.proper a ha.has hca).level_lt
    have hlt : i < u.variableCount :=
      Nat.lt_of_lt_of_le (Nat.lt_of_le_of_lt hia hlevel) hsu.variableCount_le
    refine (yields_ask_apply op hlt (ha.dependsFrom hs hia) (hb.dependsFrom hs hib)
      (hlow.mono ht htu) hhigh).bind fun q x hux hx hq => ?_
    have hsx := hsu.trans hux
    intro _
    have hxy := x.le_insertCombined key q
    exact ⟨hx.withCombined op (ha.mono hs hsx) (hb.mono hs hsx) hq hkey, hxy, hq.mono hx hxy⟩

/-- **A connective denotes what it says of its operands.** -/
theorem yields_combine (op : Connective) (ha : s.Denotes a f) (hb : s.Denotes b g) :
    Yields s (combine op a b) fun q t => t.Denotes q fun v => op.apply (f v) (g v) :=
  yields_combineWithin op _ (Nat.lt_succ_self _) ha hb

theorem yields_conj (ha : s.Denotes a f) (hb : s.Denotes b g) :
    Yields s (conj a b) fun q t => t.Denotes q fun v => f v && g v :=
  yields_combine .conj ha hb

theorem yields_disj (ha : s.Denotes a f) (hb : s.Denotes b g) :
    Yields s (disj a b) fun q t => t.Denotes q fun v => f v || g v :=
  yields_combine .disj ha hb

/-- Implication denotes implication. -/
theorem yields_implies (ha : s.Denotes a f) (hb : s.Denotes b g) :
    Yields s (implies a b) fun q t => t.Denotes q fun v => !f v || g v :=
  .of_valid fun hs => (yields_neg ha).bind fun _ _ hst _ hn => yields_disj hn (hb.mono hs hst)

/-! ### Lists -/

theorem foldl_apply_absorbing (op : Connective) (fs : List (Valuation → Bool)) (v : Valuation) :
    fs.foldl (fun b f => op.apply b (f v)) op.absorbingValue = op.absorbingValue := by
  induction fs with
  | nil => rfl
  | cons f fs ih => rw [List.foldl_cons, op.apply_absorbing, ih]

/-- Combining a list, where the rest after the absorbing constant does not count. -/
theorem yields_combineFrom (op : Connective) {acc : Ref} {rs : List Ref}
    {fs : List (Valuation → Bool)} (hacc : s.Denotes acc g) (hrs : s.DenoteAll rs fs) :
    Yields s (combineFrom op acc rs) fun q t =>
      t.Denotes q fun v => fs.foldl (fun b f => op.apply b (f v)) (g v) := by
  induction rs generalizing acc g s fs with
  | nil =>
    cases hrs
    exact .pure fun _ => hacc
  | cons r rs ih =>
    obtain ⟨f, fs, hr, hrest, rfl⟩ := List.forall₂_cons_left_iff.1 hrs
    refine .of_valid fun hs => (yields_combine op hacc hr).bind fun next t hst ht hnext => ?_
    split
    · rename_i habs
      refine .pure fun _ => hnext.congr fun v => ?_
      have h := hnext.eval_eq v
      rw [habs, op.eval_absorbing] at h
      rw [List.foldl_cons, ← h, foldl_apply_absorbing]
    · have hfrom := ih hnext (Store.DenoteAll.mono hrest hs hst)
      exact hfrom

/-- **The conjunction of a list** is true where all members are. -/
theorem yields_conjAll {rs : List Ref} {fs : List (Valuation → Bool)} (hrs : s.DenoteAll rs fs) :
    Yields s (conjAll rs) fun q t => t.Denotes q fun v => fs.all (· v) := by
  have hfold : ∀ (fs : List (Valuation → Bool)) (v : Valuation) (b : Bool),
      fs.foldl (fun b f => Connective.conj.apply b (f v)) b = (b && fs.all (· v)) := by
    intro fs v
    induction fs with
    | nil => exact fun b => (Bool.and_true b).symm
    | cons f fs ih => exact fun b => (ih _).trans (Bool.and_assoc ..)
  exact .of_valid fun hs => (yields_combineFrom .conj hs.denotes_top hrs).mono
    fun _ _ _ _ hq => hq.congr fun v => hfold fs v true

/-- **The disjunction of a list** is true where some member is. -/
theorem yields_disjAll {rs : List Ref} {fs : List (Valuation → Bool)} (hrs : s.DenoteAll rs fs) :
    Yields s (disjAll rs) fun q t => t.Denotes q fun v => fs.any (· v) := by
  have hfold : ∀ (fs : List (Valuation → Bool)) (v : Valuation) (b : Bool),
      fs.foldl (fun b f => Connective.disj.apply b (f v)) b = (b || fs.any (· v)) := by
    intro fs v
    induction fs with
    | nil => exact fun b => (Bool.or_false b).symm
    | cons f fs ih => exact fun b => (ih _).trans (Bool.or_assoc ..)
  exact .of_valid fun hs => (yields_combineFrom .disj hs.denotes_bot hrs).mono
    fun _ _ _ _ hq => hq.congr fun v => hfold fs v false

end
end Diagram
end RouteSolver
