/-
# Where the fields of a route lie

Laying a domain out gives every field of a route consecutive variables of its own, and the fields
follow each other without a gap (`yields_ofDomain`, `Layout.Over`). So a valuation is cut into one
block of bits for each field, and `wellFormed` says what it is meant to say of these blocks
(`yields_wellFormed`).
-/

import RouteSolver.Layout
import RouteSolver.Proofs.Diagram.Block

namespace RouteSolver

open Diagram

namespace Layout

/-- How many variables each field has. -/
def widths (d : Domain) : List Nat :=
  [Protocol.all.length, 32, lengthWidth, 32, 32, 32, 32, 32, clusterListWidth,
    OriginType.all.length, d.communityCount, d.asPaths.size, d.tracks.length, d.sourceVrfs.length,
    d.nextHopInterfaces.length]

theorem sum_widths (d : Domain) : (widths d).sum = d.variableCount := by
  rw [widths, Domain.variableCount, Domain.nextHopInterfaceStart, Domain.sourceVrfStart,
    Domain.trackStart, Domain.asPathStart, listStart, originTypeStart, clusterListStart,
    nextHopStart, tagStart, metricStart, adminDistanceStart, localPreferenceStart, lengthStart,
    addressStart, protocolStart]
  simp only [List.sum_cons, List.sum_nil, Nat.add_assoc, Nat.zero_add, Nat.add_zero]

/-- Every field has its own variables in the store. -/
structure Over (l : Layout) (d : Domain) (s : Store) : Prop where
  protocol : s.LaysOut l.protocol.selectors protocolStart Protocol.all.length
  protocol_alternatives : l.protocol.alternatives = Protocol.all
  address : s.LaysOut l.address.bits addressStart 32
  length : s.LaysOut l.length.bits lengthStart lengthWidth
  localPreference : s.LaysOut l.localPreference.bits localPreferenceStart 32
  adminDistance : s.LaysOut l.adminDistance.bits adminDistanceStart 32
  metric : s.LaysOut l.metric.bits metricStart 32
  tag : s.LaysOut l.tag.bits tagStart 32
  nextHop : s.LaysOut l.nextHop.bits nextHopStart 32
  clusterListLength : s.LaysOut l.clusterListLength.bits clusterListStart clusterListWidth
  originType : s.LaysOut l.originType.selectors originTypeStart OriginType.all.length
  originType_alternatives : l.originType.alternatives = OriginType.all
  communities : s.LaysOut l.communities listStart d.communityCount
  asPaths : s.LaysOut l.asPaths d.asPathStart d.asPaths.size
  tracks : s.LaysOut l.tracks d.trackStart d.tracks.length
  sourceVrfs : s.LaysOut l.sourceVrfs d.sourceVrfStart d.sourceVrfs.length
  nextHopInterfaces :
    s.LaysOut l.nextHopInterfaces d.nextHopInterfaceStart d.nextHopInterfaces.length

variable {s t : Store} {l : Layout} {d : Domain}

theorem Over.mono (h : l.Over d s) (hs : s.Valid) (hst : s ≤ t) : l.Over d t where
  protocol := h.protocol.mono hs hst
  protocol_alternatives := h.protocol_alternatives
  address := h.address.mono hs hst
  length := h.length.mono hs hst
  localPreference := h.localPreference.mono hs hst
  adminDistance := h.adminDistance.mono hs hst
  metric := h.metric.mono hs hst
  tag := h.tag.mono hs hst
  nextHop := h.nextHop.mono hs hst
  clusterListLength := h.clusterListLength.mono hs hst
  originType := h.originType.mono hs hst
  originType_alternatives := h.originType_alternatives
  communities := h.communities.mono hs hst
  asPaths := h.asPaths.mono hs hst
  tracks := h.tracks.mono hs hst
  sourceVrfs := h.sourceVrfs.mono hs hst
  nextHopInterfaces := h.nextHopInterfaces.mono hs hst

/-- All variables of the layout have been named. -/
theorem Over.variableCount_le (h : l.Over d s) : d.variableCount ≤ s.variableCount := by
  have h₁ := h.protocol.variableCount_le (Nat.zero_le _)
  have h₂ := h.length.variableCount_le (h.address.variableCount_le h₁)
  have h₃ := h.adminDistance.variableCount_le (h.localPreference.variableCount_le h₂)
  have h₄ := h.tag.variableCount_le (h.metric.variableCount_le h₃)
  have h₅ := h.clusterListLength.variableCount_le (h.nextHop.variableCount_le h₄)
  have h₆ := h.communities.variableCount_le (h.originType.variableCount_le h₅)
  have h₇ := h.tracks.variableCount_le (h.asPaths.variableCount_le h₆)
  exact h.nextHopInterfaces.variableCount_le (h.sourceVrfs.variableCount_le h₇)

/-- **Laying a domain out** gives every field variables of its own. -/
theorem yields_ofDomain (d : Domain) : Yields s (ofDomain d) fun l t => l.Over d t := by
  rw [ofDomain]
  refine (yields_choiceLayOut _ _ _).bind fun protocol s₁ _ v₁ hprotocol => ?_
  refine (yields_bitVectorLayOut _ _).bind fun address s₂ e₁ v₂ haddress => ?_
  refine (yields_bitVectorLayOut _ _).bind fun length s₃ e₂ v₃ hlength => ?_
  refine (yields_bitVectorLayOut _ _).bind fun localPreference s₄ e₃ v₄ hlocalPreference => ?_
  refine (yields_bitVectorLayOut _ _).bind fun adminDistance s₅ e₄ v₅ hadminDistance => ?_
  refine (yields_bitVectorLayOut _ _).bind fun metric s₆ e₅ v₆ hmetric => ?_
  refine (yields_bitVectorLayOut _ _).bind fun tag s₇ e₆ v₇ htag => ?_
  refine (yields_bitVectorLayOut _ _).bind fun nextHop s₈ e₇ v₈ hnextHop => ?_
  refine (yields_bitVectorLayOut _ _).bind fun clusters s₉ e₈ v₉ hclusters => ?_
  refine (yields_choiceLayOut _ _ _).bind fun originType s₁₀ e₉ v₁₀ horiginType => ?_
  refine (yields_positives _ _).bind fun communities s₁₁ e₁₀ v₁₁ hcommunities => ?_
  refine (yields_positives _ _).bind fun asPaths s₁₂ e₁₁ v₁₂ hasPaths => ?_
  refine (yields_positives _ _).bind fun tracks s₁₃ e₁₂ v₁₃ htracks => ?_
  refine (yields_positives _ _).bind fun sourceVrfs s₁₄ e₁₃ v₁₄ hsourceVrfs => ?_
  refine (yields_positives _ _).bind fun interfaces s₁₅ e₁₄ _ hinterfaces => ?_
  -- every store on the way is part of the last one
  have e₁₃ := e₁₃.trans e₁₄
  have e₁₂ := e₁₂.trans e₁₃
  have e₁₁ := e₁₁.trans e₁₂
  have e₁₀ := e₁₀.trans e₁₁
  have e₉ := e₉.trans e₁₀
  have e₈ := e₈.trans e₉
  have e₇ := e₇.trans e₈
  have e₆ := e₆.trans e₇
  have e₅ := e₅.trans e₆
  have e₄ := e₄.trans e₅
  have e₃ := e₃.trans e₄
  have e₂ := e₂.trans e₃
  have e₁ := e₁.trans e₂
  exact .pure fun _ => {
    protocol := hprotocol.1.mono v₁ e₁
    protocol_alternatives := hprotocol.2
    address := haddress.mono v₂ e₂
    length := hlength.mono v₃ e₃
    localPreference := hlocalPreference.mono v₄ e₄
    adminDistance := hadminDistance.mono v₅ e₅
    metric := hmetric.mono v₆ e₆
    tag := htag.mono v₇ e₇
    nextHop := hnextHop.mono v₈ e₈
    clusterListLength := hclusters.mono v₉ e₉
    originType := horiginType.1.mono v₁₀ e₁₀
    originType_alternatives := horiginType.2
    communities := hcommunities.mono v₁₁ e₁₁
    asPaths := hasPaths.mono v₁₂ e₁₂
    tracks := htracks.mono v₁₃ e₁₃
    sourceVrfs := hsourceVrfs.mono v₁₄ e₁₄
    nextHopInterfaces := hinterfaces }

/-! ### Well-formed valuations -/

/-- What the blocks of a valuation have to be like. -/
structure WellFormed (d : Domain) (v : Valuation) : Prop where
  length_le : Bits.value (block v lengthStart lengthWidth) ≤ 32
  protocol : (block v protocolStart Protocol.all.length).count true = 1
  originType : (block v originTypeStart OriginType.all.length).count true = 1
  asPath : (block v d.asPathStart d.asPaths.size).count true = 1
  nextHopInterface :
    (block v d.nextHopInterfaceStart d.nextHopInterfaces.length).count true ≤ 1
  sourceVrf : (block v d.sourceVrfStart d.sourceVrfs.length).count true ≤ 1

/-- The variable belongs to a field that well-formedness looks at: neither to a number other than
the length of the prefix nor to the communities. -/
def IsChecked (d : Domain) (i : Nat) : Prop :=
  i < addressStart ∨ lengthStart ≤ i ∧ i < localPreferenceStart ∨
    originTypeStart ≤ i ∧ i < listStart ∨ d.asPathStart ≤ i ∧ i < d.variableCount

instance (d : Domain) : DecidablePred (IsChecked d) := fun i =>
  inferInstanceAs (Decidable (i < addressStart ∨ _))

theorem asPathStart_le_variableCount (d : Domain) : d.asPathStart ≤ d.variableCount := by
  rw [Domain.variableCount, Domain.nextHopInterfaceStart, Domain.sourceVrfStart, Domain.trackStart]
  omega

theorem IsChecked.lt {i : Nat} (h : IsChecked d i) : i < d.variableCount := by
  have hfixed : addressStart ≤ listStart ∧ localPreferenceStart ≤ listStart := by decide
  have hlists : listStart ≤ d.asPathStart := Nat.le_add_right _ _
  have hend := asPathStart_le_variableCount d
  rcases h with h | h | h | h <;> omega

/-- The variables of the protocol are those of one protocol. -/
theorem WellFormed.exists_protocol {v : Valuation} (h : WellFormed d v) :
    ∃ p, block v protocolStart Protocol.all.length = oneHot Protocol.all p := by
  have hprotocols : Protocol.all.Nodup := by decide
  obtain ⟨p, -, hp⟩ := exists_eq_oneHot hprotocols (length_block ..) h.protocol
  exact ⟨p, hp⟩

theorem WellFormed.exists_originType {v : Valuation} (h : WellFormed d v) :
    ∃ o, block v originTypeStart OriginType.all.length = oneHot OriginType.all o := by
  have horigins : OriginType.all.Nodup := by decide
  obtain ⟨o, -, ho⟩ := exists_eq_oneHot horigins (length_block ..) h.originType
  exact ⟨o, ho⟩

/-- Only the fields that it looks at count for well-formedness. -/
theorem WellFormed.congr {v w : Valuation} (h : WellFormed d v)
    (hvw : ∀ i, IsChecked d i → v i = w i) : WellFormed d w := by
  obtain ⟨hasPaths, hvrf, hvrfs, hinterface⟩ :
      d.asPathStart + d.asPaths.size ≤ d.variableCount ∧ d.asPathStart ≤ d.sourceVrfStart ∧
      d.sourceVrfStart + d.sourceVrfs.length ≤ d.variableCount ∧
      d.asPathStart ≤ d.nextHopInterfaceStart := by
    simp only [Domain.variableCount, Domain.nextHopInterfaceStart, Domain.sourceVrfStart,
      Domain.trackStart]
    omega
  have hlist : ∀ first count, d.asPathStart ≤ first → first + count ≤ d.variableCount →
      block v first count = block w first count := fun _ _ hfirst hlast =>
    block_congr fun i hi hi' => hvw i (.inr (.inr (.inr ⟨by omega, by omega⟩)))
  have hprotocol : block v protocolStart Protocol.all.length = block w protocolStart _ :=
    block_congr fun i _ hi' => hvw i (.inl hi')
  have hlength : block v lengthStart lengthWidth = block w lengthStart _ :=
    block_congr fun i hi hi' => hvw i (.inr (.inl ⟨hi, hi'⟩))
  have horigin : block v originTypeStart OriginType.all.length = block w originTypeStart _ :=
    block_congr fun i hi hi' => hvw i (.inr (.inr (.inl ⟨hi, hi'⟩)))
  exact {
    length_le := hlength ▸ h.length_le
    protocol := hprotocol ▸ h.protocol
    originType := horigin ▸ h.originType
    asPath := hlist d.asPathStart _ le_rfl hasPaths ▸ h.asPath
    nextHopInterface := hlist d.nextHopInterfaceStart _ hinterface le_rfl ▸ h.nextHopInterface
    sourceVrf := hlist d.sourceVrfStart _ hvrf hvrfs ▸ h.sourceVrf }

instance (d : Domain) : DecidablePred (WellFormed d) := fun v =>
  decidable_of_iff (Bits.value (block v lengthStart lengthWidth) ≤ 32 ∧
      (block v protocolStart Protocol.all.length).count true = 1 ∧
      (block v originTypeStart OriginType.all.length).count true = 1 ∧
      (block v d.asPathStart d.asPaths.size).count true = 1 ∧
      (block v d.nextHopInterfaceStart d.nextHopInterfaces.length).count true ≤ 1 ∧
      (block v d.sourceVrfStart d.sourceVrfs.length).count true ≤ 1)
    ⟨fun ⟨h₁, h₂, h₃, h₄, h₅, h₆⟩ => ⟨h₁, h₂, h₃, h₄, h₅, h₆⟩,
      fun ⟨h₁, h₂, h₃, h₄, h₅, h₆⟩ => ⟨h₁, h₂, h₃, h₄, h₅, h₆⟩⟩

/-- **Well-formedness** of a layout is that of valuations. -/
theorem yields_wellFormed (h : l.Over d s) : Yields s l.wellFormed fun q t =>
    ∃ f, t.Denotes q f ∧ ∀ v, f v = true ↔ WellFormed d v := by
  rw [wellFormed]
  refine .of_valid fun hs => (yields_le h.length.denoteAll 32).bind fun a s₁ e₀ v₁ ha => ?_
  have h₁ := h.mono hs e₀
  refine (yields_exactlyOne h₁.protocol.denoteAll).bind fun b s₂ e₁ v₂ hb => ?_
  have h₂ := h₁.mono v₁ e₁
  refine (yields_exactlyOne h₂.originType.denoteAll).bind fun c s₃ e₂ v₃ hc => ?_
  have h₃ := h₂.mono v₂ e₂
  refine (yields_exactlyOne h₃.asPaths.denoteAll).bind fun x s₄ e₃ v₄ hx => ?_
  have h₄ := h₃.mono v₃ e₃
  refine (yields_atMostOne h₄.nextHopInterfaces.denoteAll).bind fun y s₅ e₄ v₅ hy => ?_
  have h₅ := h₄.mono v₄ e₄
  refine (yields_atMostOne h₅.sourceVrfs.denoteAll).bind fun z s₆ e₅ v₆ hz => ?_
  have e₄ := e₄.trans e₅
  have e₃ := e₃.trans e₄
  have e₂ := e₂.trans e₃
  have e₁ := e₁.trans e₂
  refine (yields_conjAll (.cons (ha.mono v₁ e₁) (.cons (hb.mono v₂ e₂) (.cons (hc.mono v₃ e₃)
    (.cons (hx.mono v₄ e₄) (.cons (hy.mono v₅ e₅) (.cons hz .nil))))))).mono
      fun q t _ _ hq => ⟨_, hq, fun v => ?_⟩
  simp only [values_consecutive, List.all_cons, List.all_nil, Bool.and_eq_true, decide_eq_true_iff,
    Bool.and_true]
  constructor
  · rintro ⟨h1, h2, h3, h4, h5, h6⟩
    exact ⟨h1, h2, h3, h4, h5, h6⟩
  · rintro ⟨h1, h2, h3, h4, h5, h6⟩
    exact ⟨h1, h2, h3, h4, h5, h6⟩

end Layout
end RouteSolver
