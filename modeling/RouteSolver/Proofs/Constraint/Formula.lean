/-
# Formulas say what their constraints say

Read at a valuation that encodes a route and an environment, a constraint is true exactly when it
holds of them (`Constraint.truth_iff_holds`), and so is its formula (`yields_formula`). A scenario
asks in addition for a well-formed valuation (`Scenario.saidBy_truth`).

The induction is on the constraint. Its leaves are comparisons of blocks of bits and disjunctions of
single variables; the latter rest on `any_communities` and `any_asPaths`, by which the classes that
the domain lists for a name are the right ones.
-/

import RouteSolver.Proofs.Constraint.Meaning
import RouteSolver.Proofs.Constraint.Truth
import RouteSolver.Proofs.Encoding.Route

namespace RouteSolver

open Diagram Delimited NameList

/-! ### The fields of an encoding -/

theorem Network.spans_iff {n : Network} {a : Address} {k : Nat} (hk : k = a.toNat) :
    n.spans k = true ↔ n.Contains a := by
  rw [hk, spans, decide_eq_true_iff]
  rfl

/-- The variable of a name has the value that the flag of the name has. -/
theorem namedBit_eq {v : Valuation} {names : List String} {first : Nat} {flag : String → Bool}
    (h : block v first names.length = names.map flag) {name : String} (hname : name ∈ names) :
    namedBit v names first name = flag name := by
  obtain ⟨i, hi⟩ := Option.isSome_iff_exists.1 (List.isSome_idxOf?.2 hname)
  obtain ⟨hlt, heq, -⟩ := List.idxOf?_eq_some_iff.1 hi
  have hbit := congrArg (·[i]?) h
  simp only [getElem?_block _ _ hlt, List.getElem?_map, List.getElem?_eq_getElem hlt, heq,
    Option.map_some, Option.some.injEq] at hbit
  rw [namedBit, hi, Option.any_some, hbit]

/-- A community is recognized by its text. -/
theorem accepts_onlyCommunity (c : StandardCommunity) (b : Community) :
    (onlyCommunity c).accepts (communityText b) = true ↔ b = .standard c := by
  rw [Automaton.accepts, onlyCommunity, Automaton.ofText, Automaton.acceptsBytes_ofBytes]
  constructor
  · exact fun hbytes => communityText_injective (Utf8.bytes_injective hbytes)
  · rintro rfl
    rfl

namespace Encodes

variable {d : Domain} {r : Route} {e : Environment} {v : Valuation} (h : Encodes d r e v)
include h

theorem value_number (hr : r.clusterList.size ≤ 255) (field : NumberField) :
    Bits.value (block v field.start field.width) = r.number field := by
  cases field with
  | localPreference => exact h.localPreference ▸ Bits.value_ofNat r.localPreference.toNat_lt
  | adminDistance => exact h.adminDistance ▸ Bits.value_ofNat r.adminDistance.toNat_lt
  | metric => exact h.metric ▸ Bits.value_ofNat r.metric.toNat_lt
  | tag => exact h.tag ▸ Bits.value_ofNat r.tag.toNat_lt
  | clusterListLength => exact h.clusterListLength ▸ Bits.value_ofNat (Nat.lt_succ_of_le hr)

/-- **The classes listed for a language of communities** say whether the route has one of it. -/
theorem any_communities {a : Automaton} {ns : List Nat}
    (hns : ConsistsOf a d.standardCommunities.parts ns) :
    anyBit (block v Layout.listStart d.communityCount) ns = true ↔
      ∃ c ∈ r.communities.toList, a.accepts (communityText c) = true := by
  rw [anyBit_iff, h.communities]
  constructor
  · rintro ⟨i, hi, htrue⟩
    have hb := List.getElem?_eq_getElem (hns.lt i hi)
    obtain ⟨c, hc, hbc⟩ := (communityFlags_part hb).1 htrue
    exact ⟨c, hc, (hns.iff _).2 ⟨i, hi, _, hb, hbc⟩⟩
  · rintro ⟨c, hc, hac⟩
    obtain ⟨i, hi, b, hb, hbc⟩ := (hns.iff _).1 hac
    exact ⟨i, hi, (communityFlags_part hb).2 ⟨c, hc, hbc⟩⟩

/-- **The variable of any other community** says whether the route has it. -/
theorem other_community {j : Nat} {c : Community} (hj : d.otherCommunities[j]? = some c) :
    anyBit (block v Layout.listStart d.communityCount) [d.standardCommunities.size + j] = true ↔
      c ∈ r.communities.toList := by
  rw [anyBit_iff, List.exists_mem_cons_iff, h.communities, communityFlags_other hj]
  simp

/-- **The classes listed for a language of AS paths** say whether the path is in it. -/
theorem any_asPaths {a : Automaton} {ns : List Nat} (hns : ConsistsOf a d.asPaths.parts ns) :
    anyBit (block v d.asPathStart d.asPaths.size) ns = true ↔
      a.accepts (asPathText r.asPath) = true := by
  rw [anyBit_iff, Automaton.accepts, hns.iff, h.asPaths]
  refine exists_congr fun i => and_congr_right fun hi => ?_
  have hb := List.getElem?_eq_getElem (hns.lt i hi)
  rw [asPathFlags_part hb, hb]
  simp only [Option.some.injEq, exists_eq_left', Automaton.accepts]

variable {names : NameList} (hd : names.domain = .ok d)
include hd

/-- The numbers of a pattern say whether the route has a community that it names. -/
theorem any_pattern {pattern : CommunityPattern} {ns : List Nat}
    (hns : d.communities? pattern = some ns) :
    anyBit (block v Layout.listStart d.communityCount) ns = true ↔ match pattern with
      | .literal c => c ∈ r.communities.toList
      | .regex p => ∃ a, matchingCommunities p = .ok a ∧
          ∃ c ∈ r.communities.toList, a.accepts (communityText c) = true := by
  match pattern with
  | .regex p =>
    obtain ⟨a, ha, hparts⟩ := regex_of_communities? hd hns
    rw [h.any_communities hparts]
    exact ⟨fun hc => ⟨a, ha, hc⟩, fun ⟨b, hb, hc⟩ => Except.ok.inj (ha.symm.trans hb) ▸ hc⟩
  | .literal (.standard c) =>
    rw [h.any_communities (standard_of_communities? hd hns)]
    simp only [accepts_onlyCommunity, exists_eq_right]
  | .literal (.extended c) =>
    obtain ⟨j, rfl, hj⟩ := other_of_communities? rfl hns
    exact h.other_community hj
  | .literal (.large c) =>
    obtain ⟨j, rfl, hj⟩ := other_of_communities? rfl hns
    exact h.other_community hj

/-! ### Constraints -/

/-- If a community constraint names its communities in one way, it says so of them. -/
theorem communityTruth_iff_holds {literal : Option Community} {regex : Option String}
    (hreg : Constraint.Registered d (.community literal regex)) :
    Constraint.truth d v (.community literal regex) = true ↔
      Constraint.Holds r e (.community literal regex) := by
  obtain ⟨pattern, ns, hpattern, hns⟩ := hreg
  have hany := h.any_pattern hd hns
  rw [Constraint.truth, hpattern]
  simp only [hns, Option.any_some]
  match literal, regex with
  | some c, none =>
    obtain rfl := Except.ok.inj hpattern
    exact hany
  | none, some p =>
    obtain rfl := Except.ok.inj hpattern
    exact hany
  | none, none => exact nomatch hpattern
  | some _, some _ => exact nomatch hpattern

theorem asPathTruth_iff_holds {regex : String} (hreg : Constraint.Registered d (.asPath regex)) :
    Constraint.truth d v (.asPath regex) = true ↔ Constraint.Holds r e (.asPath regex) := by
  obtain ⟨ns, hns⟩ := hreg
  obtain ⟨a, ha, hparts⟩ := regex_of_asPaths? hd hns
  rw [Constraint.truth, hns, Option.any_some, h.any_asPaths hparts]
  exact ⟨fun hc => ⟨a, ha, hc⟩, fun ⟨b, hb, hc⟩ => Except.ok.inj (ha.symm.trans hb) ▸ hc⟩

omit hd

theorem withinTruth_iff_holds (hr : r.clusterList.size ≤ 255) {field : NumberField}
    {min max : Option UInt32} : Constraint.truth d v (.within field min max) = true ↔
      Constraint.Holds r e (.within field min max) := by
  rw [Constraint.truth, h.value_number hr, Constraint.Holds, Bool.and_eq_true]
  cases min <;> cases max <;> simp

/-- The network of the route is in the network if its address is and it is as long; the latter is
asked for by the least length. -/
theorem prefixTruth_iff_holds {network : Network} {minLength maxLength : Option UInt8} :
    Constraint.truth d v (.prefixWithin network minLength maxLength) = true ↔
      Constraint.Holds r e (.prefixWithin network minLength maxLength) := by
  rw [Constraint.truth, h.value_length, Bool.and_eq_true, decide_eq_true_iff,
    Network.spans_iff h.value_address, Constraint.Holds, Network.isSubnetOf_iff, Nat.max_le]
  constructor
  · rintro ⟨haddress, ⟨hmin, hnetwork⟩, hmax⟩
    exact ⟨⟨hnetwork, haddress⟩, hmin, hmax⟩
  · rintro ⟨⟨hnetwork, haddress⟩, hmin, hmax⟩
    exact ⟨haddress, ⟨hmin, hnetwork⟩, hmax⟩

end Encodes

namespace Constraint

variable {names : NameList} {d : Domain} {r : Route} {e : Environment} {v : Valuation}

mutual
/-- **At an encoding** a constraint whose names are registered is true exactly when it holds. -/
theorem truth_iff_holds (hd : names.domain = .ok d) (h : Encodes d r e v)
    (hr : r.clusterList.size ≤ 255) :
    ∀ c : Constraint, c.Registered d → (c.truth d v = true ↔ c.Holds r e)
  | .protocol p, _ => by
    rw [truth, decide_eq_true_iff, h.protocol, oneHot_inj p.mem_all]
    rfl
  | .originType o, _ => by
    rw [truth, decide_eq_true_iff, h.originType, oneHot_inj o.mem_all]
    rfl
  | .within _ _ _, _ => h.withinTruth_iff_holds hr
  | .prefixWithin _ _ _, _ => h.prefixTruth_iff_holds
  | .nextHopWithin _, _ => Network.spans_iff h.value_nextHop
  | .community _ _, hreg => h.communityTruth_iff_holds hd hreg
  | .asPath _, hreg => h.asPathTruth_iff_holds hd hreg
  | .nextHopInterface _, hreg => by
    rw [truth, namedBit_eq h.nextHopInterfaces hreg, decide_eq_true_iff]
    rfl
  | .track _, hreg => by
    rw [truth, namedBit_eq h.tracks hreg, Environment.trackSucceeds, List.contains_iff_mem]
    rfl
  | .sourceVrf _, hreg => by
    rw [truth, namedBit_eq h.sourceVrfs hreg, decide_eq_true_iff]
    rfl
  | .not c, hreg => by
    rw [truth, Bool.not_eq_true', ← Bool.not_eq_true, truth_iff_holds hd h hr c hreg]
    rfl
  | .allOf cs, hreg => allTrue_iff_allHold hd h hr cs hreg
  | .anyOf cs, hreg => anyTrue_iff_anyHolds hd h hr cs hreg

theorem allTrue_iff_allHold (hd : names.domain = .ok d) (h : Encodes d r e v)
    (hr : r.clusterList.size ≤ 255) :
    ∀ cs : List Constraint, AllRegistered d cs → (allTrue d v cs = true ↔ AllHold r e cs)
  | [], _ => ⟨fun _ => trivial, fun _ => rfl⟩
  | c :: cs, hreg => by
    rw [allTrue, Bool.and_eq_true, truth_iff_holds hd h hr c hreg.1,
      allTrue_iff_allHold hd h hr cs hreg.2]
    rfl

theorem anyTrue_iff_anyHolds (hd : names.domain = .ok d) (h : Encodes d r e v)
    (hr : r.clusterList.size ≤ 255) :
    ∀ cs : List Constraint, AllRegistered d cs → (anyTrue d v cs = true ↔ AnyHolds r e cs)
  | [], _ => ⟨nofun, False.elim⟩
  | c :: cs, hreg => by
    rw [anyTrue, Bool.or_eq_true, truth_iff_holds hd h hr c hreg.1,
      anyTrue_iff_anyHolds hd h hr cs hreg.2]
    rfl
end

end Constraint

/-! ### Formulas -/

/-- Of every encoding the function says what the constraint says of the route. -/
def Constraint.SaidBy (d : Domain) (c : Constraint) (f : Valuation → Bool) : Prop :=
  ∀ v r e, Encodes d r e v → r.clusterList.size ≤ 255 → (f v = true ↔ c.Holds r e)

/-- The function is true of well-formed valuations only, and of the encoding of a route if that is
well formed and all constraints hold of the route. -/
structure Scenario.SaidBy (d : Domain) (sc : Scenario) (f : Valuation → Bool) : Prop where
  wellFormed : ∀ v, f v = true → Layout.WellFormed d v
  iff : ∀ v r e, Encodes d r e v → r.clusterList.size ≤ 255 →
    (f v = true ↔ Layout.WellFormed d v ∧ ∀ c ∈ sc.constraints, c.Holds r e)

section
variable {names : NameList} {d : Domain} {l : Layout} {s : Store} (hd : names.domain = .ok d)
include hd

/-- **The formula of a constraint** says what the constraint says. -/
theorem yields_formula (c : Constraint) (hl : l.Over d s) :
    YieldsOk s (c.formula l d) fun q t => ∃ f, t.Denotes q f ∧ c.SaidBy d f :=
  (yields_truth c hl).mono fun _ _ _ _ hq =>
    ⟨_, hq.1, fun _ _ _ h hr => Constraint.truth_iff_holds hd h hr c hq.2⟩

/-- What a scenario asks of valuations is what it says, if its names are registered. -/
theorem Scenario.saidBy_truth {sc : Scenario} (hreg : Constraint.AllRegistered d sc.constraints) :
    sc.SaidBy d (sc.truth d) where
  wellFormed _ hv := (Scenario.truth_iff.1 hv).1
  iff v r e h hr := by
    rw [Scenario.truth_iff, Constraint.allTrue_iff_allHold hd h hr _ hreg, Constraint.allHold_iff]

end

end RouteSolver
