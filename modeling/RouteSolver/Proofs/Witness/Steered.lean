/-
# What wishes can cost

Wishes are granted as long as the diagram stays satisfiable. Whether the model can be decoded is not
asked: a wish may lead to a model that holds a class of communities or AS paths without a readable
text, while the least model without wishes holds none. So a scenario that has a witness without
wishes keeps it exactly if the model that the granted wishes lead to can be read, and the only thing
that can come instead is an unreadable text (`Witness.search_steered`).

A wish can be made to cost the witness: "if the local preference is 100, then some community is
`99999:0`" (`Witness.priced`).
-/

import RouteSolver.Proofs.Preference.Greedy
import RouteSolver.Proofs.Witness.Classified

namespace RouteSolver

open Decimal Diagram Delimited Utf8
open Layout (protocolStart addressStart localPreferenceStart adminDistanceStart originTypeStart)

namespace Witness

/-! ### Searches with and without wishes -/

/-- What has a witness is satisfiable. -/
theorem satisfiable_of_search {sc : Scenario} {steered : Bool} {w : Witness}
    (h : search sc steered = .ok w) : sc.Satisfiable := by
  have hverdict := verdict_search sc steered
  rw [h] at hverdict
  cases hverdict with
  | satisfiable hsat _ => exact hsat

/-- **Wishes cost a witness at most by an unreadable text.** If a search without wishes finds a
witness, then granting the wishes of the scenario leads to a least model; a search with wishes finds
a witness, with the wishes that were granted, exactly if all classes that this model holds are
readable, and else fails because of a text that writes no value. -/
theorem search_steered {sc : Scenario} {w : Witness} (h : search sc false = .ok w) :
    ∃ d q s g granted v, sc.CompilesTo d q s ∧
      Granted (s.eval q) sc.preferences.wishes g granted ∧ IsLeastModel g v ∧
      ((d.ReadableAt v ∧ ∃ w', search sc true = .ok w' ∧ w'.granted = granted) ∨
        (¬d.ReadableAt v ∧ ∃ e, search sc true = .error (.decode e) ∧ e.Unreadable)) := by
  obtain ⟨d, q, s, hq, u, hu⟩ := satisfiable_of_search h
  have houtcome := hq.outcome true
  generalize search sc true = x at houtcome ⊢
  cases houtcome with
  | unsatisfiable hno => exact Bool.noConfusion ((hno u).symm.trans hu)
  | @decoded g granted v _ hg hv hx =>
    refine ⟨d, q, s, g, granted, v, hq, hg, hv, ?_⟩
    exact hx.cases (NameList.domain_valid hq.domain) (hq.wellFormed (hg.entails hv.holds))

end Witness

/-! ### Classes without a readable text -/

/-- **A pattern that no community matches** makes a model unreadable that holds one of its classes.
-/
theorem Domain.not_readableAt {names : NameList} {d : Domain} (hd : names.domain = .ok d)
    {p : String} {ns : List Nat} (hns : d.communities? (.regex p) = some ns) {a : Automaton}
    (ha : matchingCommunities p = .ok a)
    (hnone : ∀ c, a.acceptsBytes (bytes (ofCommunity c)) = false) {v : Valuation}
    (hv : anyBit (block v Layout.listStart d.communityCount) ns = true) : ¬d.ReadableAt v := by
  intro hread
  obtain ⟨a', ha', hparts⟩ := NameList.regex_of_communities? hd hns
  obtain rfl := Except.ok.inj (ha.symm.trans ha')
  obtain ⟨i, hi, hbit⟩ := anyBit_iff.1 hv
  have hlt := hparts.lt i hi
  have hb := List.getElem?_eq_getElem hlt
  have hcount : i < d.communityCount := Nat.lt_of_lt_of_le hlt (Nat.le_add_right _ _)
  rw [getElem?_block _ _ hcount, Option.some.injEq] at hbit
  obtain ⟨c, hc⟩ := hread.communities i _ hb hbit
  have haccepts := (hparts.iff _).2 ⟨i, hi, _, hb, hc.1⟩
  exact Bool.noConfusion ((hnone c).symm.trans haccepts)

/-- A model that holds no class of communities is readable, if no patterns of AS paths are named. -/
theorem Domain.readableAt_of_none {names : NameList} {d : Domain} (hd : names.domain = .ok d)
    (hnames : names.asPathRegexes = []) {v : Valuation}
    (hv : ∀ i, Layout.listStart ≤ i → i < d.asPathStart → v i = false) : d.ReadableAt v where
  communities i a ha hi := by
    have hlt := (List.getElem?_eq_some_iff.1 ha).1
    have hcount : i < d.communityCount := Nat.lt_of_lt_of_le hlt (Nat.le_add_right _ _)
    have hfalse := hv (Layout.listStart + i) (Nat.le_add_right _ _) (Nat.add_lt_add_left hcount _)
    exact Bool.noConfusion (hi.symm.trans hfalse)
  asPaths i a ha _ := by
    obtain ⟨_, _, ks, -, -, -, hks, rfl⟩ := NameList.exists_of_domain hd
    rw [hnames] at hks
    obtain rfl : [] = ks := Except.ok.inj hks
    exact Domain.readable_nameless.asPaths a (List.mem_of_getElem? ha)

/-! ### A wish that costs the witness -/

namespace Witness

/-- The pattern of a text that has the form of a community, with a number that is too large. -/
def tooLarge : String := "^99999:0$"

/-- If the local preference is 100, then some community is `99999:0`. -/
def priced : Scenario :=
  ⟨.empty, [.anyOf [.not (.within .localPreference (some 100) (some 100)),
    .community none (some tooLarge)]], .default⟩

theorem text_tooLarge : (numbersPattern 99999 0).text = tooLarge := by
  rw [RouterPattern.text, spell_numbersPattern, communityChars, colonNumbers]
  simp [digits_of_ge, digits_of_lt]
  rfl

theorem matchingCommunities_tooLarge : ∃ a, matchingCommunities tooLarge = .ok a ∧
    a.acceptsBytes (ascii (communityChars 99999 0)) = true ∧
      ∀ c, a.acceptsBytes (bytes (ofCommunity c)) = false := by
  obtain ⟨a, ha, -, haccepts⟩ :=
    matchingCommunities_numbersPattern (m := 99999) (n := 0) (by decide) (by decide)
  refine ⟨a, text_tooLarge ▸ ha, (haccepts _).2 rfl, fun c => ?_⟩
  rw [← Bool.not_eq_true, haccepts, bytes_ofCommunity_eq_iff]
  rintro ⟨hhigh, -⟩
  have hlt := c.high.toNat_lt
  omega

section
variable {d : Domain} {ns : List Nat} (hns : d.communities? (.regex tooLarge) = some ns)
  {v w : Valuation}
include hns

/-- What the scenario asks of a valuation. -/
theorem truth_priced : priced.truth d v = true ↔ Layout.WellFormed d v ∧
    (Bits.value (block v localPreferenceStart 32) ≠ 100 ∨
      anyBit (block v Layout.listStart d.communityCount) ns = true) := by
  have hwithin : Constraint.truth d v (.within .localPreference (some 100) (some 100)) =
      (decide (100 ≤ Bits.value (block v localPreferenceStart 32)) &&
        decide (Bits.value (block v localPreferenceStart 32) ≤ 100)) := rfl
  have hpreference : Constraint.truth d v (.not (.within .localPreference (some 100) (some 100))) =
      true ↔ Bits.value (block v localPreferenceStart 32) ≠ 100 := by
    rw [Constraint.truth, hwithin, Bool.not_eq_true', ← Bool.not_eq_true, Bool.and_eq_true,
      decide_eq_true_iff, decide_eq_true_iff]
    omega
  have hcommunity : Constraint.truth d v (.community none (some tooLarge)) =
      anyBit (block v Layout.listStart d.communityCount) ns := by
    simp only [Constraint.truth, communityPattern, hns, Option.any_some]
  rw [Scenario.truth_iff, priced, Constraint.allTrue, Constraint.allTrue, Constraint.truth,
    Constraint.anyTrue, Constraint.anyTrue, Constraint.anyTrue, Bool.and_true, Bool.or_false,
    Bool.or_eq_true, hpreference, hcommunity]

/-- **The least model without wishes** holds no class of communities: neither they nor the local
preference are needed for anything. -/
theorem eq_false_of_isLeastModel (hv : IsLeastModel (priced.truth d) v) {i : Nat}
    (hi : Layout.listStart ≤ i) (hi' : i < d.asPathStart) : v i = false := by
  let w : Valuation := fun i => v i &&
    (decide (i < localPreferenceStart ∨ adminDistanceStart ≤ i ∧ i < Layout.listStart) ||
      decide (d.asPathStart ≤ i))
  have hbefore : addressStart ≤ localPreferenceStart := by decide
  have hnext : adminDistanceStart = localPreferenceStart + 32 := rfl
  have hbehind : adminDistanceStart ≤ originTypeStart ∧ originTypeStart ≤ Layout.listStart := by
    decide
  have hstart : Layout.listStart ≤ d.asPathStart := Nat.le_add_right _ _
  have hwf : Layout.WellFormed d w := by
    refine ((truth_priced hns).1 hv.holds).1.congr fun j hj => ?_
    rw [Layout.IsChecked] at hj
    simp only [w, Bool.eq_self_and, Bool.or_eq_true, decide_eq_true_iff]
    omega
  have hzero : block w localPreferenceStart 32 =
      block (fun _ => false) localPreferenceStart 32 := by
    refine block_congr fun j hj hj' => ?_
    simp only [w, Bool.and_eq_false_iff, Bool.or_eq_false_iff, decide_eq_false_iff_not]
    omega
  have hw : priced.truth d w = true := (truth_priced hns).2 ⟨hwf, .inl (by rw [hzero]; decide)⟩
  have heq : w = v := hv.eq_of_le hw fun j hj => (Bool.and_eq_true_iff.1 hj).1
  rw [← heq]
  simp only [w, Bool.and_eq_false_iff, Bool.or_eq_false_iff, decide_eq_false_iff_not]
  omega

end

theorem second_of_le : ∀ a b c x y z : Bool, [true, true, x, y] ≤ [a, b, c, z] → b = true := by
  decide

/-- **The first two wishes are granted**, so that the class of the pattern has to be held. -/
theorem anyBit_of_granted {d : Domain} {ns : List Nat}
    (hd : priced.allNames.domain = .ok d) (hns : d.communities? (.regex tooLarge) = some ns)
    {g : Valuation → Bool} {granted : List Wish} {v : Valuation}
    (hg : Granted (priced.truth d) Preferences.default.wishes g granted) (hv : g v = true) :
    anyBit (block v Layout.listStart d.communityCount) ns = true := by
  obtain ⟨a, ha, haccepts, -⟩ := matchingCommunities_tooLarge
  obtain ⟨a', ha', hparts⟩ := NameList.regex_of_communities? hd hns
  obtain rfl := Except.ok.inj (ha.symm.trans ha')
  obtain ⟨k, hk, b, hb, -⟩ := (hparts.iff _).1 haccepts
  have hlt : k < d.communityCount :=
    Nat.lt_of_lt_of_le (List.getElem?_eq_some_iff.1 hb).1 (Nat.le_add_right _ _)
  -- a BGP route with local preference 100, to which the class is added
  let r : Route := { staticRoute with protocol := .bgp, localPreference := 100 }
  let u : Valuation := fun i => encode d r ⟨[], none⟩ i || decide (i = Layout.listStart + k)
  have henc := encodes_encode d r ⟨[], none⟩
  have hsame : ∀ i, i < Layout.listStart ∨ d.asPathStart ≤ i → encode d r ⟨[], none⟩ i = u i := by
    intro i hi
    simp only [Domain.asPathStart] at hi
    simp only [u, Bool.eq_self_or, decide_eq_true_iff]
    omega
  have hwf : Layout.WellFormed d u :=
    (henc.wellFormed (NameList.domain_valid hd) (by decide)).congr fun i hi => by
      have horder : addressStart ≤ Layout.listStart ∧ localPreferenceStart ≤ Layout.listStart := by
        decide
      rw [Layout.IsChecked] at hi
      exact hsame i (by omega)
  have hblock : ∀ first count, first + count ≤ Layout.listStart →
      block u first count = block (encode d r ⟨[], none⟩) first count := fun _ _ hle =>
    block_congr fun i _ hi => (hsame i (.inl (Nat.lt_of_lt_of_le hi hle))).symm
  have hbit : u (Layout.listStart + k) = true := by
    simp only [u, decide_true, Bool.or_true]
  have hu : priced.truth d u = true := (truth_priced hns).2 ⟨hwf, .inr (anyBit_iff.2
    ⟨k, hk, (getElem?_block _ _ hlt).trans (congrArg some hbit)⟩)⟩
  have hprotocol : (Wish.protocol .bgp).asks u = true := by
    rw [Wish.asks, hblock protocolStart _ (by decide), henc.protocol]
    exact decide_eq_true rfl
  have hpreference : (Wish.localPreference 100).asks u = true := by
    rw [Wish.asks, hblock localPreferenceStart 32 (by decide), henc.localPreference]
    decide
  have hle := hg.verdicts_le hv hu
  simp only [Preferences.wishes, Preferences.default, Preferences.defaultLocalPreference,
    List.map_cons, List.map_nil, hprotocol, hpreference] at hle
  have hasks := of_decide_eq_true (second_of_le _ _ _ _ _ _ hle)
  exact ((truth_priced hns).1 (hg.entails hv)).2.resolve_left fun hne => hne hasks

theorem exists_compilesTo_priced : ∃ d q s ns, priced.CompilesTo d q s ∧
    d.communities? (.regex tooLarge) = some ns := by
  obtain ⟨a, ha, -⟩ := matchingCommunities_tooLarge
  have hfaulty : ¬priced.Faulty := by
    rintro (⟨text, htext, -⟩ | ⟨pattern, e, hm, he⟩ | ⟨pattern, e, hm, -⟩)
    · exact absurd htext List.not_mem_nil
    · obtain rfl := List.mem_singleton.1 (Scenario.has_allNames.2 hm : pattern ∈ [tooLarge])
      exact nomatch ha.symm.trans he
    · exact absurd (Scenario.has_allNames.2 hm : pattern ∈ []) List.not_mem_nil
  cases hd : priced.allNames.domain with
  | error e => exact absurd (Scenario.faulty_iff.2 ⟨e, hd⟩) hfaulty
  | ok d =>
    have hlists : priced.allNames.Lists (.regex tooLarge) := .regex List.mem_cons_self
    obtain ⟨ns, hns⟩ := NameList.exists_communities?_of_lists hd hlists
    have hreg : Constraint.AllRegistered d priced.constraints :=
      ⟨⟨trivial, ⟨_, ns, rfl, hns⟩, trivial⟩, trivial⟩
    obtain ⟨q, s, hq⟩ := Scenario.exists_compilesTo hd hreg
    exact ⟨d, q, s, ns, hq, hns⟩

/-- Without wishes there is a witness. -/
theorem exists_search_priced : ∃ w, search priced false = .ok w := by
  obtain ⟨d, q, s, ns, hq, hns⟩ := exists_compilesTo_priced
  have hsat : ∃ v, priced.truth d v = true := by
    have henc := encodes_encode d staticRoute ⟨[], none⟩
    refine ⟨_, (truth_priced hns).2 ⟨henc.wellFormed (NameList.domain_valid hq.domain) (by decide),
      .inl ?_⟩⟩
    rw [henc.localPreference]
    decide
  have houtcome := hq.outcome false
  rw [hq.eval_eq] at houtcome
  generalize search priced false = x at houtcome ⊢
  cases houtcome with
  | unsatisfiable hno =>
    obtain ⟨v, hv⟩ := hsat
    exact Bool.noConfusion ((hno v).symm.trans hv)
  | decoded hg hv hx =>
    cases hg
    have hread := Domain.readableAt_of_none hq.domain rfl
      fun i hi hi' => eq_false_of_isLeastModel hns hv hi hi'
    have hwf := ((truth_priced hns).1 hv.holds).1
    obtain ⟨-, w, hw, -⟩ | ⟨hnot, -⟩ := hx.cases (NameList.domain_valid hq.domain) hwf
    · exact ⟨w, hw⟩
    · exact absurd hread hnot

theorem search_steered_priced : ∃ w, search priced false = .ok w ∧
    ∃ d q s g granted v, priced.CompilesTo d q s ∧
      Granted (s.eval q) priced.preferences.wishes g granted ∧ IsLeastModel g v ∧
      ((d.ReadableAt v ∧ ∃ w', search priced true = .ok w' ∧ w'.granted = granted) ∨
        (¬d.ReadableAt v ∧ ∃ e, search priced true = .error (.decode e) ∧ e.Unreadable)) := by
  obtain ⟨w, hw⟩ := exists_search_priced
  exact ⟨w, hw, search_steered hw⟩

/-- **A wish can cost the witness.** -/
theorem search_priced : (∃ w, search priced false = .ok w) ∧ ¬∃ w, search priced true = .ok w := by
  refine ⟨exists_search_priced, ?_⟩
  rintro ⟨w, hw⟩
  obtain ⟨d, q, s, ns, hq, hns⟩ := exists_compilesTo_priced
  have houtcome := hq.outcome true
  rw [hw, hq.eval_eq] at houtcome
  cases houtcome with
  | decoded hg hv hx =>
    obtain ⟨a, ha, -, hnone⟩ := matchingCommunities_tooLarge
    have hheld := anyBit_of_granted hq.domain hns hg hv.holds
    have hwf := ((truth_priced hns).1 (hg.entails hv.holds)).1
    obtain ⟨hread, -⟩ | ⟨-, e, he, -⟩ := hx.cases (NameList.domain_valid hq.domain) hwf
    · exact Domain.not_readableAt hq.domain hns ha hnone hheld hread
    · exact nomatch he

end Witness
end RouteSolver
