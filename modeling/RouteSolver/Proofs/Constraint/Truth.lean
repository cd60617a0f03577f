/-
# What the formula of a constraint is true of

What a constraint asks for can be said of a valuation, without any diagram: `Constraint.truth` reads
the blocks of the valuation and goes along the constraint. If the constraint has a formula, then its
names are registered and the formula denotes just this (`yields_truth`), whatever has been built
before. Together with well-formedness that is what the formula of a scenario denotes
(`yields_scenarioTruth`).

Routes are not spoken of here: what constraints say of those is another matter, and the valuations
that encode one are few.
-/

import RouteSolver.Proofs.Constraint.Registered

namespace RouteSolver

open Diagram
open Layout (protocolStart addressStart lengthStart lengthWidth localPreferenceStart
  adminDistanceStart metricStart tagStart nextHopStart clusterListStart clusterListWidth
  originTypeStart)

/-! ### Formulas being built -/

/-- If it gives a result, the computation gives one with some property, in a store that extends the
one it started from. -/
def YieldsOk {α : Type} (s : Store) (m : FormulaBuild α) (post : α → Store → Prop) : Prop :=
  Yields s m.run fun x t => ∀ a, x = .ok a → post a t

namespace YieldsOk

variable {α β : Type} {s : Store} {m : FormulaBuild α} {k : α → FormulaBuild β}
  {p : α → Store → Prop} {post : β → Store → Prop}

theorem of_valid (h : s.Valid → YieldsOk s m p) : YieldsOk s m p := Yields.of_valid h

theorem pure {a : α} (h : s.Valid → p a s) : YieldsOk s (Pure.pure a) p :=
  Yields.pure fun hs _ hb => Except.ok.inj hb ▸ h hs

theorem throw (e : ConstraintError) : YieldsOk s (MonadExcept.throw e : FormulaBuild α) p :=
  Yields.pure fun _ => nofun

theorem mono {q : α → Store → Prop} (hm : YieldsOk s m p)
    (h : ∀ a t, s ≤ t → t.Valid → p a t → q a t) : YieldsOk s m q :=
  Yields.mono hm fun _ t hst ht hp a ha => h a t hst ht (hp a ha)

theorem bind (hm : YieldsOk s m p)
    (hk : ∀ a t, s ≤ t → t.Valid → p a t → YieldsOk t (k a) post) : YieldsOk s (m >>= k) post := by
  rw [YieldsOk, ExceptT.run_bind]
  refine Yields.bind hm fun x t hst ht hp => ?_
  cases x with
  | ok a => exact hk a t hst ht (hp a rfl)
  | error e => exact Yields.pure fun _ => nofun

theorem lift {m : Build α} (hm : Yields s m p) : YieldsOk s (liftM m : FormulaBuild α) p :=
  Yields.map (hm.mono fun _ _ _ _ hp _ hb => Except.ok.inj hb ▸ hp)

theorem ofExcept {x : Except ConstraintError α} (h : ∀ a, x = .ok a → s.Valid → p a s) :
    YieldsOk s (liftExcept x : FormulaBuild α) p := by
  cases x with
  | ok a => exact YieldsOk.pure (h a rfl)
  | error e => exact YieldsOk.throw e

theorem liftM_except {x : Except ConstraintError α} (h : ∀ a, x = .ok a → s.Valid → p a s) :
    YieldsOk s (liftM x : FormulaBuild α) p := Yields.pure fun hs a ha => h a ha hs

end YieldsOk

/-! ### What a constraint asks of a valuation -/

namespace NumberField

/-- Where the number lies in a layout. -/
def start : NumberField → Nat
  | localPreference => localPreferenceStart
  | adminDistance => adminDistanceStart
  | metric => metricStart
  | tag => tagStart
  | clusterListLength => clusterListStart

/-- Its bits. -/
def width : NumberField → Nat
  | clusterListLength => clusterListWidth
  | _ => 32

end NumberField

/-- The number lies between the two ends of the network. -/
def Network.spans (n : Network) (address : Nat) : Bool :=
  decide (n.first.toNat ≤ address ∧ address ≤ n.last.toNat)

/-- Some of the bits with the given numbers is true. -/
def anyBit (bits : List Bool) (numbers : List Nat) : Bool :=
  numbers.any fun i => decide (bits[i]? = some true)

theorem anyBit_iff {bits : List Bool} {ns : List Nat} :
    anyBit bits ns = true ↔ ∃ i ∈ ns, bits[i]? = some true := by
  simp only [anyBit, List.any_eq_true, decide_eq_true_iff]

/-- The variable of a name, which is there and true. -/
def namedBit (v : Valuation) (names : List String) (first : Nat) (name : String) : Bool :=
  (names.idxOf? name).any fun i => v (first + i)

namespace Constraint

mutual
/-- What a constraint asks of a valuation over a domain. -/
def truth (d : Domain) (v : Valuation) : Constraint → Bool
  | .protocol p => decide (block v protocolStart Protocol.all.length = oneHot Protocol.all p)
  | .originType o =>
    decide (block v originTypeStart OriginType.all.length = oneHot OriginType.all o)
  | .within field min max =>
    let n := Bits.value (block v field.start field.width)
    min.all (fun lo => decide (lo.toNat ≤ n)) && max.all fun hi => decide (n ≤ hi.toNat)
  | .prefixWithin network minLength maxLength =>
    let n := Bits.value (block v lengthStart lengthWidth)
    network.spans (Bits.value (block v addressStart 32)) &&
      decide (max ((minLength.map UInt8.toNat).getD 0) network.length ≤ n ∧
        n ≤ (maxLength.map UInt8.toNat).getD 32)
  | .nextHopWithin network => network.spans (Bits.value (block v nextHopStart 32))
  | .community literal regex =>
    match communityPattern literal regex with
    | .ok pattern =>
      (d.communities? pattern).any (anyBit (block v Layout.listStart d.communityCount))
    | .error _ => false
  | .asPath regex => (d.asPaths? regex).any (anyBit (block v d.asPathStart d.asPaths.size))
  | .nextHopInterface name => namedBit v d.nextHopInterfaces d.nextHopInterfaceStart name
  | .track name => namedBit v d.tracks d.trackStart name
  | .sourceVrf name => namedBit v d.sourceVrfs d.sourceVrfStart name
  | .not c => !truth d v c
  | .allOf cs => allTrue d v cs
  | .anyOf cs => anyTrue d v cs

/-- All of the constraints are true. -/
def allTrue (d : Domain) (v : Valuation) : List Constraint → Bool
  | [] => true
  | c :: cs => truth d v c && allTrue d v cs

/-- Some of the constraints is true. -/
def anyTrue (d : Domain) (v : Valuation) : List Constraint → Bool
  | [] => false
  | c :: cs => truth d v c || anyTrue d v cs
end

section
variable (d : Domain) (v : Valuation) (cs : List Constraint)

theorem allTrue_eq_all : allTrue d v cs = cs.all (·.truth d v) := by
  induction cs with
  | nil => rfl
  | cons c cs ih => rw [allTrue, ih, List.all_cons]

theorem anyTrue_eq_any : anyTrue d v cs = cs.any (·.truth d v) := by
  induction cs with
  | nil => rfl
  | cons c cs ih => rw [anyTrue, ih, List.any_cons]

/-! Ways to write the same thing differently -/

variable {d v cs} {ds : List Constraint}

/-- Neither the order of constraints nor their repetition counts. -/
theorem allTrue_congr (h : ∀ c, c ∈ cs ↔ c ∈ ds) : allTrue d v cs = allTrue d v ds := by
  rw [allTrue_eq_all, allTrue_eq_all, Bool.eq_iff_iff, List.all_eq_true, List.all_eq_true]
  exact forall_congr' fun c => by rw [h c]

theorem allTrue_append : allTrue d v (cs ++ ds) = (allTrue d v cs && allTrue d v ds) := by
  rw [allTrue_eq_all, allTrue_eq_all, allTrue_eq_all, List.all_append]

/-- A conjunction among constraints may as well stand there in its parts. -/
theorem allTrue_allOf_cons : allTrue d v (.allOf cs :: ds) = allTrue d v (cs ++ ds) := by
  rw [allTrue_append, allTrue, truth]

theorem truth_not_not (c : Constraint) : truth d v (.not (.not c)) = truth d v c := by
  rw [truth, truth, Bool.not_not]

theorem truth_not_anyOf : truth d v (.not (.anyOf cs)) = truth d v (.allOf (cs.map .not)) := by
  rw [truth, truth, truth, allTrue_eq_all, anyTrue_eq_any, List.not_any_eq_all_not, List.all_map]
  exact List.all_congr rfl fun c => by rw [Function.comp_apply, truth]

end

end Constraint

/-! ### Leaves -/

section
variable {s : Store} {xs : List Ref} {x : BitVector} {first count : Nat}

/-- "The number lies between the bounds." -/
theorem yields_bounded (hx : s.LaysOut x.bits first count) (min max : Option UInt32) :
    Yields s (x.bounded min max) fun q t => t.Denotes q fun v =>
      min.all (fun lo => decide (lo.toNat ≤ Bits.value (block v first count))) &&
        max.all fun hi => decide (Bits.value (block v first count) ≤ hi.toNat) := by
  refine (yields_between hx.denoteAll _ _).mono fun q t _ _ hq => hq.congr fun v => ?_
  have hlt := Bits.value_lt (block v first count)
  rw [length_block] at hlt
  have hmax := hx.denoteAll.maxValue_eq
  rw [length_consecutive] at hmax
  rw [values_consecutive, Bool.decide_and]
  congr 1
  · cases min with
    | none => exact decide_eq_true (Nat.zero_le _)
    | some lo => rfl
  · cases max with
    | none =>
      have hle : Bits.value (block v first count) ≤ x.maxValue := by omega
      exact decide_eq_true hle
    | some hi => rfl

/-- "The address lies in the network." -/
theorem yields_inNetwork (hx : s.LaysOut x.bits first count) (n : Network) :
    Yields s (x.inNetwork n) fun q t =>
      t.Denotes q fun v => n.spans (Bits.value (block v first count)) :=
  (yields_between hx.denoteAll _ _).mono fun q t _ _ hq => hq.congr fun v => by
    rw [values_consecutive]
    rfl

/-- "The choice is this alternative." -/
theorem yields_isAlternative {α : Type} [DecidableEq α] {c : Choice α} {all : List α}
    (hc : s.LaysOut c.selectors first count) (hall : c.alternatives = all)
    (hcount : count = all.length) (hnodup : all.Nodup) {a : α} (ha : a ∈ all) :
    Yields s (c.eq a) fun q t =>
      t.Denotes q fun v => decide (block v first count = oneHot all a) := by
  subst hall
  have hlen := (length_consecutive first count).trans hcount
  refine (yields_choiceEq hc.denoteAll hlen hnodup ha).mono
    fun q t _ _ hq => hq.congr fun v => ?_
  rw [values_consecutive]

/-- Selected are the variables that there are. -/
theorem Diagram.Store.LaysOut.denoteAll_selected (hx : s.LaysOut xs first count) (ns : List Nat) :
    s.DenoteAll (selected xs ns)
      ((ns.filter (· < count)).map fun i (v : Valuation) => v (first + i)) := by
  induction ns with
  | nil => exact .nil
  | cons n ns ih =>
    rw [selected] at ih ⊢
    rcases Nat.lt_or_ge n count with hn | hn
    · obtain ⟨x, hget, hdenotes⟩ := hx.exists_denotes hn
      rw [List.filterMap_cons_some hget, List.filter_cons_of_pos (by simpa using hn)]
      exact .cons hdenotes ih
    · have hget := List.getElem?_eq_none (hx.length_eq.symm ▸ hn)
      rwa [List.filterMap_cons_none hget, List.filter_cons_of_neg (by simpa using hn)]

/-- "One of these variables is true." -/
theorem yields_disjAll_selected (hx : s.LaysOut xs first count) (ns : List Nat) :
    Yields s (disjAll (selected xs ns)) fun q t =>
      t.Denotes q fun v => anyBit (block v first count) ns := by
  refine (yields_disjAll (hx.denoteAll_selected ns)).mono fun q t _ _ hq => hq.congr fun v => ?_
  rw [Bool.eq_iff_iff, anyBit_iff, List.any_map, List.any_eq_true]
  refine exists_congr fun i => ?_
  rw [List.mem_filter, decide_eq_true_iff, and_assoc]
  refine and_congr_right fun _ => ?_
  rcases Nat.lt_or_ge i count with hi | hi
  · rw [getElem?_block _ _ hi, Option.some.injEq, Function.comp_apply]
    exact and_iff_right hi
  · rw [List.getElem?_eq_none ((length_block v first count).symm ▸ hi)]
    exact iff_of_false (fun h => absurd h.1 (Nat.not_lt.2 hi)) (by simp)

/-- The variable of a name stands where the name does. -/
theorem exists_of_namedVariable {kind : NameKind} {names : List String} {name : String} {y : Ref}
    (h : namedVariable kind names xs name = .ok y) :
    ∃ i : Nat, names.idxOf? name = some i ∧ xs[i]? = some y := by
  rw [namedVariable] at h
  split at h
  · rename_i z hz
    obtain ⟨i, hi, hx⟩ := Option.bind_eq_some_iff.1 hz
    exact ⟨i, hi, Except.ok.inj h ▸ hx⟩
  · cases h

/-- "The variable of this name is true." -/
theorem yieldsOk_namedVariable {kind : NameKind} {names : List String}
    (hx : s.LaysOut xs first names.length) (name : String) :
    YieldsOk s (liftExcept (namedVariable kind names xs name)) fun q t =>
      t.Denotes q (fun v => namedBit v names first name) ∧ name ∈ names := by
  refine YieldsOk.ofExcept fun y h _ => ?_
  obtain ⟨i, hi, hy⟩ := exists_of_namedVariable h
  obtain ⟨hlt, hname, -⟩ := List.idxOf?_eq_some_iff.1 hi
  refine ⟨(hx.denotes hy).congr fun v => ?_, hname ▸ List.getElem_mem hlt⟩
  rw [namedBit, hi, Option.any_some]

end

/-! ### All constraints -/

section
variable {d : Domain} {l : Layout} {s : Store}

namespace Layout.Over

theorem number (h : l.Over d s) (field : NumberField) :
    s.LaysOut (l.number field).bits field.start field.width := by
  cases field with
  | localPreference => exact h.localPreference
  | adminDistance => exact h.adminDistance
  | metric => exact h.metric
  | tag => exact h.tag
  | clusterListLength => exact h.clusterListLength

end Layout.Over

theorem yields_prefixTruth (hl : l.Over d s) (network : Network)
    (minLength maxLength : Option UInt8) :
    YieldsOk s (Constraint.formula l d (.prefixWithin network minLength maxLength)) fun q t =>
      t.Denotes q fun v => Constraint.truth d v (.prefixWithin network minLength maxLength) := by
  refine YieldsOk.of_valid fun hs => (YieldsOk.lift (yields_inNetwork hl.address network)).bind
    fun a t hst ht ha => ?_
  refine (YieldsOk.lift (yields_between (hl.mono hs hst).length.denoteAll _ _)).bind
    fun b u htu _ hb => ?_
  refine YieldsOk.lift ((yields_conj (ha.mono ht htu) hb).mono fun q _ _ _ hq => ?_)
  refine hq.congr fun v => ?_
  rw [values_consecutive, Constraint.truth]

theorem yields_communityTruth (hl : l.Over d s) (literal : Option Community)
    (regex : Option String) :
    YieldsOk s (Constraint.formula l d (.community literal regex)) fun q t =>
      (t.Denotes q fun v => Constraint.truth d v (.community literal regex)) ∧
        Constraint.Registered d (.community literal regex) := by
  rw [Constraint.formula]
  have hpattern : YieldsOk s (liftM (communityPattern literal regex)) fun pattern _ =>
      communityPattern literal regex = .ok pattern := YieldsOk.liftM_except fun _ h _ => h
  refine YieldsOk.of_valid fun hs => hpattern.bind fun pattern t hst _ hp => ?_
  cases hns : d.communities? pattern with
  | none => exact YieldsOk.throw _
  | some ns =>
    refine YieldsOk.lift ((yields_disjAll_selected (hl.mono hs hst).communities ns).mono
      fun q u _ _ hq => ⟨hq.congr fun v => ?_, pattern, ns, hp, hns⟩)
    simp only [Constraint.truth, hp, hns, Option.any_some]

mutual
/-- **The formula of a constraint** denotes what the constraint asks of a valuation; and there is
one only if all names are registered. -/
theorem yields_truth : ∀ (c : Constraint) {s : Store}, l.Over d s →
    YieldsOk s (c.formula l d) fun q t => (t.Denotes q fun v => c.truth d v) ∧ c.Registered d
  | .protocol p, _, hl => YieldsOk.lift <|
    (yields_isAlternative hl.protocol hl.protocol_alternatives rfl (by decide) p.mem_all).mono
      fun _ _ _ _ hq => ⟨hq, trivial⟩
  | .originType o, _, hl => YieldsOk.lift <|
    (yields_isAlternative hl.originType hl.originType_alternatives rfl (by decide) o.mem_all).mono
      fun _ _ _ _ hq => ⟨hq, trivial⟩
  | .within field min max, _, hl => YieldsOk.lift <|
    (yields_bounded (hl.number field) min max).mono fun _ _ _ _ hq => ⟨hq, trivial⟩
  | .prefixWithin network minLength maxLength, _, hl =>
    (yields_prefixTruth hl network minLength maxLength).mono fun _ _ _ _ hq => ⟨hq, trivial⟩
  | .nextHopWithin network, _, hl => YieldsOk.lift <|
    (yields_inNetwork hl.nextHop network).mono fun _ _ _ _ hq => ⟨hq, trivial⟩
  | .community literal regex, _, hl => yields_communityTruth hl literal regex
  | .asPath regex, _, hl => by
    rw [Constraint.formula]
    cases hns : d.asPaths? regex with
    | none => exact YieldsOk.throw _
    | some ns =>
      refine YieldsOk.lift ((yields_disjAll_selected hl.asPaths ns).mono
        fun q u _ _ hq => ⟨hq.congr fun v => ?_, ns, hns⟩)
      rw [Constraint.truth, hns, Option.any_some]
  | .nextHopInterface name, _, hl => yieldsOk_namedVariable hl.nextHopInterfaces name
  | .track name, _, hl => yieldsOk_namedVariable hl.tracks name
  | .sourceVrf name, _, hl => yieldsOk_namedVariable hl.sourceVrfs name
  | .not c, _, hl => by
    refine (yields_truth c hl).bind fun a t _ _ ⟨ha, hreg⟩ => ?_
    exact YieldsOk.lift ((yields_neg ha).mono fun q _ _ _ hq => ⟨hq, hreg⟩)
  | .allOf cs, _, hl => by
    refine (yields_truths cs hl).bind fun as t _ _ ⟨has, hreg⟩ => ?_
    refine YieldsOk.lift ((yields_conjAll has).mono fun q _ _ _ hq => ⟨hq.congr fun v => ?_, hreg⟩)
    rw [Constraint.truth, Constraint.allTrue_eq_all, List.all_map]
    rfl
  | .anyOf cs, _, hl => by
    refine (yields_truths cs hl).bind fun as t _ _ ⟨has, hreg⟩ => ?_
    refine YieldsOk.lift ((yields_disjAll has).mono fun q _ _ _ hq => ⟨hq.congr fun v => ?_, hreg⟩)
    rw [Constraint.truth, Constraint.anyTrue_eq_any, List.any_map]
    rfl

/-- The formulas of some constraints denote what each of these asks of a valuation. -/
theorem yields_truths : ∀ (cs : List Constraint) {s : Store}, l.Over d s →
    YieldsOk s (Constraint.formulas l d cs) fun qs t =>
      t.DenoteAll qs (cs.map fun c v => c.truth d v) ∧ Constraint.AllRegistered d cs
  | [], _, _ => YieldsOk.pure fun _ => ⟨.nil, trivial⟩
  | c :: cs, s, hl => by
    refine YieldsOk.of_valid fun hs => (yields_truth c hl).bind fun a t hst ht ⟨ha, hreg⟩ => ?_
    refine (yields_truths cs (hl.mono hs hst)).bind fun as u htu _ ⟨has, hregs⟩ => ?_
    exact YieldsOk.pure fun _ => ⟨.cons (ha.mono ht htu) has, hreg, hregs⟩
end

/-! ### Scenarios -/

/-- What a scenario asks of a valuation over a domain: that it be well formed, and all constraints
true. -/
def Scenario.truth (d : Domain) (sc : Scenario) (v : Valuation) : Bool :=
  decide (Layout.WellFormed d v) && Constraint.allTrue d v sc.constraints

theorem Scenario.truth_iff {sc : Scenario} {v : Valuation} : sc.truth d v = true ↔
    Layout.WellFormed d v ∧ Constraint.allTrue d v sc.constraints = true := by
  rw [truth, Bool.and_eq_true, decide_eq_true_iff]

/-- **The formula of a scenario** denotes what the scenario asks of a valuation. -/
theorem yields_scenarioTruth (hl : l.Over d s) (sc : Scenario) :
    YieldsOk s (sc.formula l d) fun q t =>
      t.Denotes q (sc.truth d) ∧ Constraint.AllRegistered d sc.constraints := by
  refine YieldsOk.of_valid fun hs => (YieldsOk.lift (Layout.yields_wellFormed hl)).bind
    fun a t hst ht ⟨f, hf, hwf⟩ => ?_
  refine (yields_truths sc.constraints (hl.mono hs hst)).bind fun as u htu _ ⟨has, hreg⟩ => ?_
  refine YieldsOk.lift ((yields_conjAll (.cons (hf.mono ht htu) has)).mono
    fun q _ _ _ hq => ⟨hq.congr fun v => ?_, hreg⟩)
  rw [Bool.eq_iff_iff, Scenario.truth_iff, List.all_cons, Bool.and_eq_true, hwf,
    Constraint.allTrue_eq_all, List.all_map]
  rfl

end

/-- The diagram of a scenario over a domain, which is laid out first. -/
def Scenario.diagram (d : Domain) (sc : Scenario) : Build (Except ConstraintError Ref) := do
  let l ← Layout.ofDomain d
  (sc.formula l d).run

/-- **The diagram of a scenario** denotes what the scenario asks of a valuation; and there is one
exactly if all names are registered. -/
theorem yields_diagram {s : Store} (d : Domain) (sc : Scenario) :
    Yields s (sc.diagram d) fun x t =>
      (Constraint.AllRegistered d sc.constraints → ∃ q, x = .ok q) ∧
        ∀ q, x = .ok q → t.Denotes q (sc.truth d) ∧
          Constraint.AllRegistered d sc.constraints := by
  refine (Layout.yields_ofDomain d).bind fun l t _ _ hl => ?_
  refine (Yields.result (yields_scenarioTruth hl sc)).mono fun x u _ _ ⟨hrun, hx⟩ =>
    ⟨fun hreg => ?_, hx⟩
  obtain ⟨q, hq⟩ := total_scenarioFormula hl hreg t
  exact ⟨q, hrun.trans hq⟩

end RouteSolver
