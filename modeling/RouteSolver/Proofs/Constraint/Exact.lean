/-
# The formula of a constraint is exact

A constraint that mentions registered names only, each community in exactly one way, has a formula
in every store that holds the layout; and at the encoding of a route and an environment the formula
is true exactly when the constraint holds of them (`formula_exact`). What may go wrong is looking a
name up (`KnownTo.registered`), what may be wrong is a leaf (`yields_formula`), and the two have
been dealt with apart from each other.
-/

import RouteSolver.Proofs.Constraint.Formula
import RouteSolver.Proofs.Constraint.Registered
import RouteSolver.Proofs.Witness.Nameless

namespace RouteSolver

open Diagram NameList

namespace Constraint

/-! ### Names that a constraint mentions -/

mutual
/-- The names register everything that the constraint mentions, and every community is named in
exactly one way. -/
def KnownTo (names : NameList) : Constraint → Prop
  | .community (some c) none => names.Registers (.literal c)
  | .community none (some pattern) => names.Registers (.regex pattern)
  | .community _ _ => False
  | .asPath pattern => pattern ∈ names.asPathRegexes
  | .nextHopInterface name => name ∈ names.nextHopInterfaces
  | .track name => name ∈ names.tracks
  | .sourceVrf name => name ∈ names.sourceVrfs
  | .not c => KnownTo names c
  | .allOf cs => AllKnownTo names cs
  | .anyOf cs => AllKnownTo names cs
  | .protocol _ | .originType _ | .within _ _ _ | .prefixWithin _ _ _ | .nextHopWithin _ => True

/-- The names register everything that some constraints mention. -/
def AllKnownTo (names : NameList) : List Constraint → Prop
  | [] => True
  | c :: cs => KnownTo names c ∧ AllKnownTo names cs
end

section
variable {names : NameList} {d : Domain}

mutual
/-- **What is registered is found**: the domain has all that the constraint looks up. -/
theorem KnownTo.registered (hd : names.domain = .ok d) :
    ∀ c : Constraint, c.KnownTo names → c.Registered d
  | .protocol _, _ => trivial
  | .originType _, _ => trivial
  | .within _ _ _, _ => trivial
  | .prefixWithin _ _ _, _ => trivial
  | .nextHopWithin _, _ => trivial
  | .community (some c) none, h => by
    obtain ⟨ns, hns⟩ := exists_communities? hd h
    exact ⟨_, ns, rfl, hns⟩
  | .community none (some pattern), h => by
    obtain ⟨ns, hns⟩ := exists_communities? hd h
    exact ⟨_, ns, rfl, hns⟩
  | .asPath _, h => exists_asPaths? hd h
  | .nextHopInterface name, h => by
    obtain ⟨_, _, _, -, -, -, -, rfl⟩ := exists_of_domain hd
    exact List.mem_eraseDups.2 h
  | .track name, h => by
    obtain ⟨_, _, _, -, -, -, -, rfl⟩ := exists_of_domain hd
    exact List.mem_eraseDups.2 h
  | .sourceVrf name, h => by
    obtain ⟨_, _, _, -, -, -, -, rfl⟩ := exists_of_domain hd
    exact List.mem_eraseDups.2 h
  | .not c, h => KnownTo.registered hd c h
  | .allOf cs, h => AllKnownTo.registered hd cs h
  | .anyOf cs, h => AllKnownTo.registered hd cs h

theorem AllKnownTo.registered (hd : names.domain = .ok d) :
    ∀ cs : List Constraint, AllKnownTo names cs → AllRegistered d cs
  | [], _ => trivial
  | c :: cs, h => ⟨KnownTo.registered hd c h.1, AllKnownTo.registered hd cs h.2⟩
end

end

/-! ### The formula -/

/-- **The formula of a constraint is exact.** In every store that holds the layout, a constraint
whose names are registered has a formula. The formula is true at the encoding of a route with single
AS numbers and at most 255 clusters exactly when the constraint holds, and every such encoding is
well formed. -/
theorem formula_exact {names : NameList} {d : Domain} (hd : names.domain = .ok d) {c : Constraint}
    (hc : c.KnownTo names) {s₀ s₁ s : Store} {l : Layout} (hs₀ : s₀.Valid)
    (hl : (Layout.ofDomain d).run s₀ = (l, s₁)) (hs : s.Valid) (hle : s₁ ≤ s) :
    ∃ q t w u, (c.formula l d).run s = (.ok q, t) ∧ l.wellFormed.run t = (w, u) ∧
      ∀ (r : Route) (e : Environment) (v : Valuation),
        (∀ hop ∈ r.asPath.hops, hop.isSingle = true) → r.clusterList.size ≤ 255 →
        (∀ i, i < d.variableCount → v i = encode d r e i) →
        (u.eval q v = true ↔ c.Holds r e) ∧ u.eval w v = true := by
  obtain ⟨hs₁, -, hover⟩ := (Layout.yields_ofDomain d).of_run hs₀ hl
  have hover := hover.mono hs₁ hle
  obtain ⟨q, hq⟩ := total_formula hover c (KnownTo.registered hd c hc) s
  rcases hformula : (c.formula l d).run s with ⟨x, t⟩
  rw [hformula] at hq
  obtain rfl : x = .ok q := hq
  have hbuilt : Yields s (c.formula l d).run fun x t =>
      ∀ q, x = .ok q → ∃ f, t.Denotes q f ∧ c.SaidBy d f := yields_formula hd c hover
  obtain ⟨ht, hst, hsaid⟩ := hbuilt.of_run hs hformula
  obtain ⟨f, hf, hsaid⟩ := hsaid q rfl
  rcases hwellFormed : l.wellFormed.run t with ⟨w, u⟩
  obtain ⟨-, htu, g, hg, hwf⟩ :=
    (Layout.yields_wellFormed (hover.mono hs hst)).of_run ht hwellFormed
  refine ⟨q, t, w, u, rfl, hwellFormed, fun r e v hr hclusters hv => ?_⟩
  have henc : Encodes d r e v := encodes_iff.2 hv
  constructor
  · rw [(hf.mono ht htu).eval_eq, hsaid v r e henc hclusters]
  · rw [hg.eval_eq, hwf]
    exact henc.wellFormed (NameList.domain_valid hd) hr

/-- A community and a track. -/
def uplinkNames : NameList :=
  ⟨[(Community.standard ⟨1, 2⟩).text], [], [], ["uplink"], [], []⟩

theorem exists_domain_uplinkNames : ∃ d, uplinkNames.domain = .ok d := by
  have hread : readCommunities uplinkNames.communities = .ok [.standard ⟨1, 2⟩] := by
    rw [uplinkNames, readCommunities, Community.read?_text]
    rfl
  rw [domain, hread]
  exact ⟨_, rfl⟩

/-- Neither more clusters than the variables can count, nor a prefix that is longer than any, nor
the community; and the track. -/
def uplinkRule : Constraint :=
  .allOf [.not (.within .clusterListLength (some 300) none),
    .not (.prefixWithin staticRoute.network (some 64) none),
    .not (.community (some (.standard ⟨1, 2⟩)) none), .track "uplink", .not (.anyOf [])]

theorem holds_uplinkRule : uplinkRule.Holds staticRoute ⟨["uplink"], none⟩ := by
  refine ⟨fun h => ?_, fun h => ?_, fun h => ?_, List.mem_singleton_self _, id, trivial⟩
  · exact absurd (h.1 300 rfl) (by decide)
  · exact absurd h.2.1 (by decide)
  · have hmem : Community.standard ⟨1, 2⟩ ∈ [Community.standard ⟨0, 0⟩] := h
    exact absurd hmem (by decide)

theorem formula_exact_uplinkRule : ∃ d l s₁ q t w u, uplinkNames.domain = .ok d ∧
    (Layout.ofDomain d).run .empty = (l, s₁) ∧ (uplinkRule.formula l d).run s₁ = (.ok q, t) ∧
      l.wellFormed.run t = (w, u) ∧ u.eval q (encode d staticRoute ⟨["uplink"], none⟩) = true ∧
        u.eval w (encode d staticRoute ⟨["uplink"], none⟩) = true := by
  obtain ⟨d, hd⟩ := exists_domain_uplinkNames
  have hknown : uplinkRule.KnownTo uplinkNames :=
    ⟨trivial, trivial, .listed (.literal List.mem_cons_self (Community.read?_text _)),
      List.mem_cons_self, trivial, trivial⟩
  rcases hl : (Layout.ofDomain d).run .empty with ⟨l, s₁⟩
  obtain ⟨hs₁, -, -⟩ := (Layout.yields_ofDomain d).of_run Store.valid_empty hl
  obtain ⟨q, t, w, u, hformula, hwellFormed, hexact⟩ :=
    formula_exact hd hknown Store.valid_empty hl hs₁ le_rfl
  obtain ⟨hholds, hwf⟩ := hexact staticRoute ⟨["uplink"], none⟩ _ representable_staticRoute.single
    (by decide) fun _ _ => rfl
  exact ⟨d, l, s₁, q, t, w, u, hd, hl, hformula, hwellFormed, hholds.2 holds_uplinkRule, hwf⟩

end Constraint
end RouteSolver
