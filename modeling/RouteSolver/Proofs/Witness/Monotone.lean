/-
# Stronger models report more

The decoders ask only what a model entails, and a model entails whatever follows from it. So a model
that entails another one reports all that this one does: every bit of a number, every item of a list
and every community (`Decoding.reported_mono`). This takes no cube, and the domain may be another
one than the route has been laid out over.

Decoding communities can fail, and then it matters in which direction success goes. An entry without
a variable is found missing under every model. All that remains to fail is a class whose least text
writes no community, and a weaker model has fewer classes to fail at
(`Decoding.representatives_sublist`): where the stronger model is decoded, so is the weaker one.
-/

import RouteSolver.Proofs.Encoding.Again
import RouteSolver.Proofs.Route.AscendingSet
import RouteSolver.Proofs.Witness.Representative
import RouteSolver.Proofs.Witness.Selection

namespace RouteSolver

open Diagram

/-! ### Numbers with more bits -/

namespace Diagram.Bits

theorem testBit_valueLow (bs : List Bool) (i : Nat) :
    (valueLow bs).testBit i = bs.getD i false := by
  induction bs generalizing i with
  | nil => exact Nat.zero_testBit i
  | cons b bs ih =>
    have hhalf : (2 * valueLow bs + b.toNat) / 2 = valueLow bs := by
      have := Bool.toNat_le b
      omega
    cases i with
    | zero =>
      rw [valueLow, Nat.testBit_zero, List.getD_cons_zero]
      cases b <;> simp
    | succ i => rw [valueLow, Nat.testBit_succ, hhalf, ih, List.getD_cons_succ]

/-- More true bits write a number with more true bits. -/
theorem testBit_value_imp {bs cs : List Bool}
    (h : List.Forall₂ (fun b c => b = true → c = true) bs cs) (i : Nat)
    (hi : (value bs).testBit i = true) : (value cs).testBit i = true := by
  have low : ∀ {bs cs : List Bool}, List.Forall₂ (fun b c => b = true → c = true) bs cs →
      ∀ i, bs.getD i false = true → cs.getD i false = true := by
    intro bs cs h
    induction h with
    | nil => exact fun _ hi => hi
    | cons hbc _ ih =>
      intro i hi
      cases i with
      | zero => exact hbc hi
      | succ i => exact ih i hi
  rw [value_eq_valueLow, testBit_valueLow] at hi ⊢
  exact low (List.forall₂_reverse_iff.2 h) i hi

end Diagram.Bits

/-- The fields of a route that are numbers. -/
def Layout.bitVectors (l : Layout) : List BitVector :=
  [l.address, l.length, l.localPreference, l.adminDistance, l.metric, l.tag, l.nextHop,
    l.clusterListLength]

theorem Layout.Over.hasAll_bitVectors {l : Layout} {d : Domain} {s : Store} (h : l.Over d s) :
    ∀ x ∈ l.bitVectors, s.HasAll x.bits := by
  have hall : l.bitVectors.Forall fun x => s.HasAll x.bits :=
    ⟨h.address.hasAll, h.length.hasAll, h.localPreference.hasAll, h.adminDistance.hasAll,
      h.metric.hasAll, h.tag.hasAll, h.nextHop.hasAll, h.clusterListLength.hasAll⟩
  exact List.forall_iff_forall_mem.1 hall

/-! ### Lists with more items -/

/-- More true bits pick more items. -/
theorem pick_sublist {α : Type} {items : List α} {bs cs : List Bool}
    (h : List.Forall₂ (fun b c => b = true → c = true) bs cs) (index : Nat) :
    (pick index items bs).Sublist (pick index items cs) := by
  induction h generalizing index items with
  | nil => exact .refl _
  | @cons b c _ _ hbc _ ih =>
    cases items with
    | nil => exact .refl _
    | cons a items =>
      rw [pick, pick]
      cases b with
      | true =>
        rw [hbc rfl]
        exact (ih (index + 1)).cons_cons _
      | false =>
        cases c with
        | true => exact (ih (index + 1)).cons _
        | false => exact ih (index + 1)

namespace Decoding

/-- **Fewer classes** are represented if more of them are, by some of the communities. -/
theorem representatives_sublist {ps qs : List (Nat × Automaton)} (h : ps.Sublist qs)
    {ds : List Community} (hds : representatives qs = .ok ds) :
    ∃ cs, representatives ps = .ok cs ∧ cs.Sublist ds := by
  rw [representatives_eq_mapM] at hds ⊢
  exact mapM_sublist h hds

/-! ### Two models -/

section
variable {s : Store} {m m' : Ref} (hs : s.Valid) (hm : s.Has m) (hm' : s.Has m')
  (h : s.entails m' m = true)
include hs hm hm' h

/-- **Entailment is transitive**: what the weaker model entails, the stronger one does. -/
theorem entails_of_entails {x : Ref} (hx : s.Has x) (hmx : s.entails m x = true) :
    s.entails m' x = true := by
  rw [hs.entails_iff hm'.denotes hm.denotes] at h
  rw [hs.entails_iff hm.denotes hx.denotes] at hmx
  rw [hs.entails_iff hm'.denotes hx.denotes]
  exact fun v hv => hmx v (h v hv)

theorem map_entails_imp {xs : List Ref} (hxs : s.HasAll xs) :
    List.Forall₂ (fun b c => b = true → c = true) (xs.map (s.entails m))
      (xs.map (s.entails m')) := by
  rw [List.forall₂_map_left_iff, List.forall₂_map_right_iff, List.forall₂_same]
  exact fun x hx => entails_of_entails hs hm hm' h (hxs x hx)

theorem entailedItems_sublist {α : Type} (items : List α) {xs : List Ref} (hxs : s.HasAll xs) :
    (entailedItems s m items xs).Sublist (entailedItems s m' items xs) := by
  rw [entailedItems_eq_pick items xs 0, entailedItems_eq_pick items xs 0]
  exact (pick_sublist (map_entails_imp hs hm hm' h hxs) 0).map _

theorem heldFrom_sublist {α : Type} {part : DomainPart} {index : Nat} {items : List α}
    {xs : List Ref} (hxs : s.HasAll xs) {qs : List (Nat × α)}
    (hqs : heldFrom s m' part index items xs = .ok qs) :
    ∃ ps, heldFrom s m part index items xs = .ok ps ∧ ps.Sublist qs := by
  obtain ⟨hle, rfl⟩ := heldFrom_eq_ok_iff.1 hqs
  exact ⟨_, heldFrom_eq_ok_iff.2 ⟨hle, rfl⟩, pick_sublist (map_entails_imp hs hm hm' h hxs) index⟩

/-- **Where the stronger model is decoded**, the weaker one is, to some of the communities. -/
theorem communities_subset {l : Layout} (hl : s.HasAll l.communities) {d : Domain}
    {set' : AscendingSet Community} (hset' : communities s m' l d = .ok set') :
    ∃ set, communities s m l d = .ok set ∧ ∀ c ∈ set.toList, c ∈ set'.toList := by
  obtain ⟨qs, hqs, hset'⟩ := exists_of_bind_eq_ok hset'
  obtain ⟨ds, hds, hset'⟩ := exists_of_bind_eq_ok hset'
  obtain ⟨ys, hys, hset'⟩ := exists_of_bind_eq_ok hset'
  obtain ⟨ps, hps, hpq⟩ := heldFrom_sublist hs hm hm' h hl hqs
  obtain ⟨cs, hcs, hcd⟩ := representatives_sublist hpq hds
  obtain ⟨xs, hxs, hxy⟩ := heldFrom_sublist hs hm hm' h
    (fun x hx => hl x (List.mem_of_mem_drop hx)) hys
  refine ⟨.ofList (cs ++ xs.map (·.2)), ?_, fun c hc => ?_⟩
  · rw [communities]
    simp only [held, hps, hcs, hxs, bind, Except.bind]
    rfl
  · rw [← Except.ok.inj hset', AscendingSet.mem_ofList]
    rw [AscendingSet.mem_ofList] at hc
    exact (hcd.append (hxy.map _)).mem hc

end

/-- **A stronger model reports more.** A route is laid out over some domain, and a model entails
another one. Then every number that is read off the route has under the stronger model all bits that
it has under the weaker one, and is no smaller; every list has all items, in the same order; and if
communities are decoded, over this or any other domain, then they are under the weaker model, to no
further ones. -/
theorem reported_mono {d₀ : Domain} {s₀ s₁ s : Store} {l : Layout} (hs₀ : s₀.Reachable)
    (hl : (Layout.ofDomain d₀).run s₀ = (l, s₁)) (hs : s.Reachable) (hle : s₁ ≤ s) {m m' : Ref}
    (hm : s.Has m) (hm' : s.Has m') (h : s.entails m' m = true) (d : Domain) :
    (∀ x ∈ l.bitVectors,
      (∀ i, (x.valueUnder s m).testBit i = true → (x.valueUnder s m').testBit i = true) ∧
        x.valueUnder s m ≤ x.valueUnder s m') ∧
    (∀ (α : Type) (items : List α) (xs : List Ref), s.HasAll xs →
      (entailedItems s m items xs).Sublist (entailedItems s m' items xs)) ∧
    ∀ set', communities s m' l d = .ok set' →
      ∃ set, communities s m l d = .ok set ∧ ∀ c ∈ set.toList, c ∈ set'.toList := by
  obtain ⟨hs₁, -, hover⟩ := (Layout.yields_ofDomain d₀).of_run hs₀.valid hl
  have hover := hover.mono hs₁ hle
  refine ⟨fun x hx => ?_, fun α items xs hxs => ?_, fun set' hset' => ?_⟩
  · have hbits := map_entails_imp hs.valid hm hm' h (hover.hasAll_bitVectors x hx)
    rw [valueUnder_eq_value, valueUnder_eq_value]
    exact ⟨Bits.testBit_value_imp hbits, Bits.value_le hbits⟩
  · exact entailedItems_sublist hs.valid hm hm' h items hxs
  · exact communities_subset hs.valid hm hm' h hover.communities.hasAll hset'

/-- A domain with one class of communities. -/
def oneClass : Domain := ⟨.ofParts [.ofText "^1:2$"], [], .ofParts [], [], [], []⟩

/-- A domain with a large community and no classes. -/
def largeOnly : Domain := ⟨.ofParts [], [.large ⟨1, 2, 3⟩], .ofParts [], [], [], []⟩

/-- The route belongs to a domain where its only variable of communities is that of a class, and is
decoded over one where the variable is that of a large community. A model that is the variable has
this community, and so the model that asks for nothing is decoded as well. -/
theorem reported_mono_largeOnly : ∃ l s x set, (Layout.ofDomain oneClass).run .empty = (l, s) ∧
    s.entails x .top = true ∧ communities s x l largeOnly = .ok (.single (.large ⟨1, 2, 3⟩)) ∧
    communities s .top l largeOnly = .ok set ∧
    (∀ c ∈ set.toList, c = .large ⟨1, 2, 3⟩) ∧
    ∀ y ∈ l.bitVectors, y.valueUnder s .top ≤ y.valueUnder s x := by
  rcases hl : (Layout.ofDomain oneClass).run .empty with ⟨l, s⟩
  have hs := Layout.reachable_of_ofDomain .empty hl
  obtain ⟨-, -, hover⟩ := (Layout.yields_ofDomain oneClass).of_run Store.valid_empty hl
  obtain ⟨x, hx⟩ := List.length_eq_one_iff.1 hover.communities.length_eq
  have hvar := hover.communities.denotes (i := 0) (x := x) (by rw [hx]; rfl)
  have hself : s.entails x x = true := (hs.valid.entails_iff hvar hvar).2 fun _ h => h
  have htop : s.entails x .top = true := by
    rw [hs.valid.entails_iff hvar hs.valid.has_top.denotes]
    exact fun v _ => Store.eval_top s v
  have hset : communities s x l largeOnly = .ok (.single (.large ⟨1, 2, 3⟩)) := by
    have hclasses : held s x .community largeOnly.standardCommunities.parts [x] = .ok [] := rfl
    have hnamed : heldFrom s x .community largeOnly.standardCommunities.parts.length
        largeOnly.otherCommunities
        ([x].drop largeOnly.standardCommunities.parts.length) = .ok [(0, .large ⟨1, 2, 3⟩)] := by
      rw [heldFrom_eq_ok_iff]
      refine ⟨Nat.le_refl 1, ?_⟩
      change pick 0 [Community.large ⟨1, 2, 3⟩] [s.entails x x] = _
      rw [hself]
      rfl
    rw [communities, hx]
    simp only [hclasses, hnamed, representatives, bind, Except.bind]
    rfl
  obtain ⟨hnumbers, -, hcommunities⟩ := reported_mono .empty hl hs (le_refl s)
    hs.valid.has_top hvar.has htop largeOnly
  obtain ⟨set, hset', hsub⟩ := hcommunities _ hset
  exact ⟨l, s, x, set, rfl, htop, hset, hset', fun c hc => List.mem_singleton.1 (hsub c hc),
    fun y hy => (hnumbers y hy).2⟩

end Decoding
end RouteSolver
