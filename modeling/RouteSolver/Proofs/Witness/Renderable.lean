/-
# Models that have a concrete rendering

A model fixes which classes of communities and AS paths a route belongs to. Some route does so
exactly if every class that the model holds has a member that can be written down
(`Decoding.exists_renders_iff`): one such member for each class will do, since the classes are
disjoint. The decoder is content with less. It looks at the least text of a class and at no other,
so it fails, if not fatally, on every model that holds a class whose least text writes nothing
(`Decoding.recoverable_iff`). Such a class may well have other members: `mixed` finds the
communities `99999:0`, which is none, and `10000:10`, which comes later.
-/

import RouteSolver.Proofs.Domain.Coarsest
import RouteSolver.Proofs.Witness.Failures

namespace RouteSolver

open Decimal Diagram Delimited Utf8

/-! ### Classes with a member that can be written down -/

/-- Every class that a valuation holds has a member that can be written down. -/
structure Domain.RenderableAt (d : Domain) (v : Valuation) : Prop where
  communities : ∀ (i : Nat) (a : Automaton), d.standardCommunities.parts[i]? = some a →
    v (Layout.listStart + i) = true → ∃ c, a.accepts (ofCommunity c) = true
  asPaths : ∀ (i : Nat) (a : Automaton), d.asPaths.parts[i]? = some a →
    v (d.asPathStart + i) = true → ∃ ns, a.accepts (asPathText (.ofNumbers ns)) = true

namespace Decoding

/-- A route of single AS numbers has the communities and the AS path that the assignment fixes. -/
structure Renders (d : Domain) (r : Route) (e : Environment) (p : Assignment) : Prop where
  single : ∀ hop ∈ r.asPath.hops, hop.isSingle = true
  encode_eq : ∀ i b, Layout.listStart ≤ i → i < d.trackStart → p i = some b → encode d r e i = b

section
variable {d : Domain} {p : Assignment}

/-- What is rendered belongs to the classes that hold. -/
theorem Renders.renderableAt {r : Route} {e : Environment} (h : Renders d r e p) (hd : d.Valid) :
    d.RenderableAt p.fill := by
  have henc := encodes_encode d r e
  have hsize : d.asPathStart + d.asPaths.size = d.trackStart := rfl
  have hcount : Layout.listStart + d.communityCount = d.asPathStart := rfl
  constructor
  · intro i a ha hi
    have hlt : i < d.communityCount :=
      Nat.lt_of_lt_of_le (List.getElem?_eq_some_iff.1 ha).1 (Nat.le_add_right _ _)
    have htrue := h.encode_eq _ _ (Nat.le_add_right _ _) (by omega) (Assignment.eq_some_of_fill hi)
    have hflag := getElem?_block (encode d r e) Layout.listStart hlt
    rw [henc.communities, htrue, communityFlags_part ha] at hflag
    obtain ⟨c, -, hc⟩ := hflag
    obtain ⟨s, rfl⟩ := isStandard_of_part hd ha hc
    exact ⟨s, hc⟩
  · intro i a ha hi
    have hlt : i < d.asPaths.size := (List.getElem?_eq_some_iff.1 ha).1
    have htrue := h.encode_eq _ _ (by omega) (by omega) (Assignment.eq_some_of_fill hi)
    have hflag := getElem?_block (encode d r e) d.asPathStart hlt
    rw [henc.asPaths, htrue, asPathFlags_part ha] at hflag
    obtain ⟨ns, hns⟩ := AsPath.exists_ofNumbers_eq h.single
    exact ⟨ns, hns ▸ hflag⟩

/-- **A well-formed model has a concrete rendering** exactly if all classes that it holds have a
member that can be written down. -/
theorem exists_renders_iff (hd : d.Valid) (hwf : Layout.WellFormed d p.fill) :
    (∃ r e, Renders d r e p) ↔ d.RenderableAt p.fill := by
  refine ⟨fun ⟨r, e, h⟩ => h.renderableAt hd, fun h => ?_⟩
  -- a member of each class of communities that holds
  have hmembers : ∀ q ∈ pick 0 d.standardCommunities.parts
      (block p.fill Layout.listStart d.communityCount), ∃ c, Belongs q c := by
    rintro ⟨i, a⟩ hq
    obtain ⟨ha, hi⟩ := (mem_pick_block (Nat.le_add_right _ _)).1 hq
    obtain ⟨c, hc⟩ := h.communities i a ha hi
    exact ⟨_, c, rfl, hc⟩
  obtain ⟨cs, hcs⟩ := exists_forall₂ hmembers
  -- and one of the only class of AS paths
  obtain ⟨⟨i, a⟩, hpick⟩ := exists_pick_eq_singleton 0
    (length_block p.fill d.asPathStart d.asPaths.size) hwf.asPath
  obtain ⟨ha, hi⟩ := (mem_pick_block (Nat.le_refl _)).1
    (hpick ▸ List.mem_singleton_self (i, a) : (i, a) ∈ pick 0 d.asPaths.parts
      (block p.fill d.asPathStart d.asPaths.size))
  obtain ⟨ns, hns⟩ := h.asPaths i a ha hi
  let set : AscendingSet Community := .ofList (cs ++ (pick d.standardCommunities.parts.length
    d.otherCommunities ((block p.fill Layout.listStart d.communityCount).drop
      d.standardCommunities.parts.length)).map (·.2))
  let r : Route := { staticRoute with communities := set, asPath := .ofNumbers ns }
  have henc := encodes_encode d r ⟨[], none⟩
  have hcommunities := henc.communities.trans
    (communityFlags_of_belong hd (length_block ..) hcs rfl)
  have hasPaths := henc.asPaths.trans (asPathFlags_of_member hd (length_block ..) hpick hns)
  refine ⟨r, ⟨[], none⟩, fun hop hhop => ?_, fun j b hj hj' hb => ?_⟩
  · obtain ⟨n, -, rfl⟩ := List.mem_map.1 hhop
    rfl
  · rw [← p.admits_fill j b hb]
    rcases Nat.lt_or_ge j d.asPathStart with hlt | hge
    · exact eq_of_block_eq hcommunities hj hlt
    · exact eq_of_block_eq hasPaths hge hj'

end

/-! ### What a failure means -/

/-- Decoding a well-formed model fails exactly if some class that holds is not readable, and then
not fatally. -/
theorem exists_recoverable_iff {d : Domain} {p : Assignment} {s : Store} {m : Ref} (hd : d.Valid)
    (hwf : Layout.WellFormed d p.fill) (hs : s.Valid) (hm : s.IsCube m p) :
    (∃ e, ((Decoding.route m d).run s).1 = .error e ∧ e.isFatal = false) ↔
      ¬d.ReadableAt p.fill := by
  rcases hrun : (Decoding.route m d).run s with ⟨x, t⟩
  obtain ⟨ht, hst, l, hl, rfl⟩ := (yields_route m d).of_run hs hrun
  have hmt := hm.mono hs hst
  rw [← exists_routeOver_iff hd hwf ht hl hmt]
  cases hx : routeOver t m l d with
  | ok r => exact iff_of_false nofun fun hnot => hnot ⟨r, rfl⟩
  | error e =>
    have hunreadable := failsOnly_routeOver hd ht hl hmt hwf e hx
    exact iff_of_true ⟨e, rfl, hunreadable.isFatal⟩ (by simp)

/-- **Decoding recovers from more than it has to.** From a cube that entails well-formedness
decoding a route fails, and then not fatally, exactly if some class that holds has a least text that
writes nothing. But the cube has a concrete rendering exactly if each of these classes has any
member that can be written down. -/
theorem recoverable_iff {names : NameList} {d : Domain} (hd : names.domain = .ok d)
    {s₀ s₁ s : Store} {q m : Ref} {p : Assignment} (hs₀ : s₀.Valid)
    (hq : (Layout.ofDomain d >>= Layout.wellFormed).run s₀ = (q, s₁)) (hs : s.Valid)
    (hle : s₁ ≤ s) (hm : s.IsCube m p) (hentails : s.entails m q = true) :
    ((∃ e, ((Decoding.route m d).run s).1 = .error e ∧ e.isFatal = false) ↔
      ¬d.ReadableAt p.fill) ∧
    ((∃ r e, Renders d r e p) ↔ d.RenderableAt p.fill) := by
  have hwf := wellFormed_of_entails hs₀ hq hs hle hm hentails
  have hvalid := NameList.domain_valid hd
  exact ⟨exists_recoverable_iff hvalid hwf hs hm, exists_renders_iff hvalid hwf⟩

theorem recoverable_iff_edge : ∃ d s₁ s q m, edgeNames.domain = .ok d ∧
    (Layout.ofDomain d >>= Layout.wellFormed).run .empty = (q, s₁) ∧ s.Valid ∧ s₁ ≤ s ∧
      s.IsCube m (checkedPart d edgeRoute edgeEnvironment) ∧ s.entails m q = true ∧
      ((∃ e, ((Decoding.route m d).run s).1 = .error e ∧ e.isFatal = false) ↔
        ¬d.ReadableAt (checkedPart d edgeRoute edgeEnvironment).fill) ∧
      ((∃ r e, Renders d r e (checkedPart d edgeRoute edgeEnvironment)) ↔
        d.RenderableAt (checkedPart d edgeRoute edgeEnvironment).fill) := by
  obtain ⟨d, hd⟩ := exists_domain_edgeNames
  obtain ⟨s₁, s, q, m, hq, hs, hle, hm, hentails⟩ := exists_cube_checkedPart
    (NameList.domain_valid hd) (representable_edge hd).single edgeEnvironment
  exact ⟨d, s₁, s, q, m, hd, hq, hs, hle, hm, hentails,
    recoverable_iff hd Store.valid_empty hq hs hle hm hentails⟩

/-! ### A class with more than its least text -/

theorem renders_encode {d : Domain} {r : Route} {e : Environment}
    (hr : ∀ hop ∈ r.asPath.hops, hop.isSingle = true) :
    Renders d r e (.below d.variableCount (encode d r e)) :=
  ⟨hr, fun i b _ _ hb => Assignment.admits_below_iff.2 (fun _ _ => rfl) i b hb⟩

/-- A pattern of two texts, of which only the second one writes a community. -/
def mixed : String := "(^99999:0$|^10000:10$)"

/-- The names of a domain that knows this pattern. -/
def mixedNames : NameList := { NameList.empty with communityRegexes := [mixed] }

theorem text_mixed :
    (RouterPattern.group (numbersPattern 99999 0) [numbersPattern 10000 10]).text = mixed := by
  simp only [RouterPattern.text, RouterPattern.spell, RouterPattern.spellMore,
    spell_numbersPattern, communityChars, colonNumbers]
  simp [digits_of_ge, digits_of_lt]
  rfl

theorem matchingCommunities_mixed : ∃ a, matchingCommunities mixed = .ok a ∧ a.Valid ∧ ∀ w,
    a.acceptsBytes w = true ↔
      w = ascii (communityChars 99999 0) ∨ w = ascii (communityChars 10000 10) := by
  let p : RouterPattern := .group (numbersPattern 99999 0) [numbersPattern 10000 10]
  have hread : (Alternatives.mk p []).IsRead .community := by
    refine Alternatives.isRead_of_depth ?_ ?_ (Nat.zero_le _)
    · simp [p, numbersPattern, RouterPattern.fits, RouterPattern.fits_ofChars,
        RouterPattern.fitsMore]
    · simp [p, numbersPattern, RouterPattern.depth, RouterPattern.depthMore,
        RouterPattern.depth_ofChars]
  obtain ⟨a, ha, hvalid, haccepts⟩ := Alternatives.exists_matching hread
  rw [← RouterPattern.text_eq, text_mixed] at ha
  refine ⟨a, ha, hvalid, fun w => (haccepts w).trans ?_⟩
  have hfound (hall : allCommunities.acceptsBytes w = true) :
      (Alternatives.mk p []).Found TextForm.community.start w ↔
        w = ascii (communityChars 99999 0) ∨ w = ascii (communityChars 10000 10) := by
    rw [Alternatives.found_single_iff (TextForm.ne_lineFeed .community hall),
      ← found_numbersPattern_iff hall, ← found_numbersPattern_iff hall]
    simp only [p, RouterPattern.Matches, RouterPattern.SomeMatches, or_false, and_or_left,
      exists_or]
    rfl
  have hall : (w = ascii (communityChars 99999 0) ∨ w = ascii (communityChars 10000 10)) →
      allCommunities.acceptsBytes w = true := by
    rintro (rfl | rfl)
    · exact (acceptsBytes_allCommunities _).2 ⟨99999, 0, by decide, by decide, rfl⟩
    · exact (acceptsBytes_allCommunities _).2 ⟨10000, 10, by decide, by decide, rfl⟩
  constructor
  · rintro ⟨hin, h⟩
    exact (hfound hin).1 h
  · exact fun h => ⟨hall h, (hfound (hall h)).2 h⟩

/-- The classes of communities are those of the pattern. -/
theorem exists_domain_mixed {a : Automaton} (ha : matchingCommunities mixed = .ok a) :
    ∃ d, mixedNames.domain = .ok d ∧
      d.standardCommunities = .ofLanguages allCommunities [(mixed, a)] := by
  have hlanguage : NameList.communityLanguage? (.regex mixed) = .ok (some (mixed, a)) := by
    delta NameList.communityLanguage?
    simp only [ha]
  have hpatterns : ([CommunityPattern.regex mixed]).eraseDups = [.regex mixed] := by decide
  refine ⟨{ Domain.nameless with
    standardCommunities := .ofLanguages allCommunities [(mixed, a)] }, ?_, rfl⟩
  rw [NameList.domain]
  simp only [mixedNames, NameList.empty, NameList.readCommunities, bind, Except.bind, List.map_nil,
    List.nil_append, List.map_cons, hpatterns, List.mapM_cons, List.mapM_nil, hlanguage, pure,
    Except.pure]
  rfl

/-- **The class of the pattern** has a community in it, but its least text writes none. -/
theorem exists_class_mixed {a : Automaton} (hvalid : a.Valid) (haccepts : ∀ w,
    a.acceptsBytes w = true ↔
      w = ascii (communityChars 99999 0) ∨ w = ascii (communityChars 10000 10)) :
    ∃ (i : Nat) (b : Automaton),
      (Partition.ofLanguages allCommunities [(mixed, a)]).parts[i]? = some b ∧
        b.accepts (ofCommunity ⟨10000, 10⟩) = true ∧ ∀ c, ¬b.IsLeast (bytes (ofCommunity c)) := by
  have hcoarsest : (Partition.ofLanguages allCommunities [(mixed, a)]).IsCoarsest allCommunities
      [(mixed, a)] :=
    Partition.isCoarsest_of_valid valid_allCommunities fun l hl => List.mem_singleton.1 hl ▸ hvalid
  obtain ⟨b, hb, hmember⟩ := (hcoarsest.covers _).1 (accepts_ofCommunity ⟨10000, 10⟩)
  obtain ⟨i, hi⟩ := List.mem_iff_getElem?.1 hb
  have hsecond : a.acceptsBytes (bytes (ofCommunity ⟨10000, 10⟩)) = true :=
    (haccepts _).2 (.inr (bytes_ofCommunity _))
  refine ⟨i, b, hi, hmember, fun c hc => ?_⟩
  -- the first text is in the class, and comes before the second one
  have hfirst : b.acceptsBytes (ascii (communityChars 99999 0)) = true := by
    refine (hcoarsest.acceptsBytes_iff hb hmember).2 ⟨(acceptsBytes_allCommunities _).2
      ⟨99999, 0, by decide, by decide, rfl⟩, fun s hs => ?_⟩
    rw [Partition.registered_singleton, Set.mem_singleton_iff] at hs
    exact hs ▸ iff_of_true hsecond ((haccepts _).2 (.inl rfl))
  have hin := ((hcoarsest.acceptsBytes_iff hb hmember).1 hc.1).2 a.members
    (Partition.registered_singleton mixed a ▸ rfl)
  rcases (haccepts _).1 (hin.1 hsecond) with hlow | hhigh
  · obtain ⟨hlarge, -⟩ := bytes_ofCommunity_eq_iff.1 hlow
    have hlt := c.high.toNat_lt
    omega
  · have hlength := (hc.2 _ hfirst).length_le
    rw [hhigh] at hlength
    have hlengths : (ascii (communityChars 99999 0)).length <
        (ascii (communityChars 10000 10)).length := by
      simp [ascii, communityChars, colonNumbers, digits_of_ge, digits_of_lt]
    omega

/-- **A model that is given up has a rendering**: the community 10000:10. -/
theorem recoverable_mixed : ∃ d s₁ s q m p, mixedNames.domain = .ok d ∧
    (Layout.ofDomain d >>= Layout.wellFormed).run .empty = (q, s₁) ∧ s.Valid ∧ s₁ ≤ s ∧
      s.IsCube m p ∧ s.entails m q = true ∧
      (∃ e, ((Decoding.route m d).run s).1 = .error e ∧ e.isFatal = false) ∧
      ∃ r e, Renders d r e p := by
  obtain ⟨a, ha, hvalid, haccepts⟩ := matchingCommunities_mixed
  obtain ⟨i, b, hb, hmember, hleast⟩ := exists_class_mixed hvalid haccepts
  obtain ⟨d, hd, hparts⟩ := exists_domain_mixed ha
  rw [← hparts] at hb
  let r : Route := { staticRoute with communities := .ofList [.standard ⟨10000, 10⟩] }
  have hr : ∀ hop ∈ r.asPath.hops, hop.isSingle = true := by decide
  have hdomain := NameList.domain_valid hd
  obtain ⟨s₁, s, q, m, hq, hs, hle, hm, hentails⟩ := exists_cube_encode hdomain hr ⟨[], none⟩
  have hwf := wellFormed_of_entails Store.valid_empty hq hs hle hm hentails
  refine ⟨d, s₁, s, q, m, _, hd, hq, hs, hle, hm, hentails, ?_, r, ⟨[], none⟩, renders_encode hr⟩
  rw [exists_recoverable_iff hdomain hwf hs hm]
  intro hread
  -- the class of the community is held, and cannot be read
  have hflag : (communityFlags d r.communities)[i]? = some true :=
    (communityFlags_part hb).2 ⟨_, List.mem_singleton_self _, hmember⟩
  have hcount : i < d.communityCount :=
    Nat.lt_of_lt_of_le (List.getElem?_eq_some_iff.1 hb).1 (Nat.le_add_right _ _)
  have henc : Encodes d r ⟨[], none⟩
      (Assignment.below d.variableCount (encode d r ⟨[], none⟩)).fill :=
    encodes_iff.2 (Assignment.admits_below_iff.1 (Assignment.admits_fill _))
  rw [← henc.communities, getElem?_block _ _ hcount, Option.some.injEq] at hflag
  obtain ⟨c, hc⟩ := hread.communities i b hb hflag
  exact hleast c hc

end Decoding
end RouteSolver
