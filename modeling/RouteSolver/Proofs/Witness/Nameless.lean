/-
# The domain without names

A domain that has to know no names has one class of communities and one class of AS paths. The least
members of these classes are `^0:0$` and `^^$` (`isLeast_allCommunities`, `isLeast_allAsPaths`), so
both can be read (`readable_nameless`).

In a domain with names these texts are still the least ones of their classes. So a route that has
them, and nothing else that could be lost, represents its classes over every domain
(`representable_leastTexts`).
-/

import RouteSolver.Proofs.Witness.Decoding

namespace RouteSolver

open Automaton Decimal Delimited Diagram Utf8

/-! ### The least texts -/

theorem noLater_digits (n : Nat) : NoLater (ascii (digits 0)) (ascii (digits n)) := by
  have hzero : digits 0 = [digitChar 0] := digits_of_lt (by decide)
  rcases Nat.lt_or_ge n 10 with hn | hn
  · have key : ∀ m : Fin 10, NoLater [byteOf (digitChar 0)] [byteOf (digitChar m)] := fun m => by
      have hle : ∀ m : Fin 10, byteOf (digitChar 0) ≤ byteOf (digitChar m) := by decide
      exact NoLater.concat_of_le [] (hle m)
    rw [hzero, digits_of_lt hn]
    exact key ⟨n, hn⟩
  · have hlen : 1 < (digits n).length := by
      rw [← Nat.not_le, length_digits_le_iff (by decide)]
      omega
    refine .inr (Precedes.of_length_lt ?_)
    rw [hzero, ascii, ascii, List.length_map, List.length_map]
    exact hlen

/-- **The least community.** -/
theorem isLeast_allCommunities : allCommunities.IsLeast (bytes (ofCommunity ⟨0, 0⟩)) := by
  refine ⟨accepts_ofCommunity ⟨0, 0⟩, fun u hu => ?_⟩
  obtain ⟨m, n, -, -, rfl⟩ := (acceptsBytes_allCommunities u).1 hu
  rw [bytes_ofCommunity, ascii_communityChars, ascii_communityChars]
  exact (NoLater.refl _).append ((noLater_digits m).append ((NoLater.refl _).append
    ((noLater_digits n).append (.refl _))))

/-- **The least AS path** is the empty one. -/
theorem isLeast_allAsPaths : allAsPaths.IsLeast (bytes (asPathText (.ofNumbers []))) := by
  refine ⟨accepts_asPathText [], fun u hu => ?_⟩
  obtain ⟨ns, rfl⟩ := (acceptsBytes_allAsPaths u).1 hu
  rw [bytes_asPathText, ascii_asPathChars, ascii_asPathChars]
  exact (NoLater.refl _).append ((NoLater.nil_left _).append (.refl _))

/-! ### The domain -/

namespace Domain

variable {d : Domain} {a : Automaton}

/-- The class of the least community can be read, whatever else is in it. -/
theorem Valid.isLeast_community (hd : d.Valid) (ha : a ∈ d.standardCommunities.parts)
    (h : a.accepts (ofCommunity ⟨0, 0⟩) = true) : a.IsLeast (bytes (ofCommunity ⟨0, 0⟩)) :=
  ⟨h, fun u hu => isLeast_allCommunities.2 u ((hd.communities.covers u).2 ⟨a, ha, hu⟩)⟩

/-- So can that of the least AS path. -/
theorem Valid.isLeast_asPath (hd : d.Valid) (ha : a ∈ d.asPaths.parts)
    (h : a.accepts (asPathText (.ofNumbers [])) = true) :
    a.IsLeast (bytes (asPathText (.ofNumbers []))) :=
  ⟨h, fun u hu => isLeast_allAsPaths.2 u ((hd.asPaths.covers u).2 ⟨a, ha, hu⟩)⟩

/-- The domain that knows no names. -/
def nameless : Domain where
  standardCommunities := .ofLanguages allCommunities []
  otherCommunities := []
  asPaths := .ofLanguages allAsPaths []
  tracks := []
  sourceVrfs := []
  nextHopInterfaces := []

theorem eq_of_mem_ofLanguages_nil {a whole : Automaton}
    (h : a ∈ (Partition.ofLanguages whole []).parts) : a = whole := by
  have hparts : (Partition.ofLanguages whole []).parts =
      if whole.isEmpty then [] else [whole] := rfl
  rw [hparts] at h
  split at h
  · exact absurd h List.not_mem_nil
  · exact List.mem_singleton.1 h

theorem readable_nameless : nameless.Readable where
  communities _ ha := ⟨⟨0, 0⟩, (eq_of_mem_ofLanguages_nil ha).symm ▸ isLeast_allCommunities⟩
  asPaths _ ha := ⟨[], (eq_of_mem_ofLanguages_nil ha).symm ▸ isLeast_allAsPaths⟩

end Domain

theorem NameList.domain_empty : NameList.empty.domain = .ok .nameless := rfl

theorem Domain.valid_nameless : Domain.nameless.Valid := NameList.domain_valid NameList.domain_empty

/-! ### A route that represents its classes -/

/-- A static route with the least community. -/
def staticRoute : Route where
  network := ⟨.ofOctets 10 1 0 0, 16, by decide⟩
  localPreference := 200
  adminDistance := 1
  metric := 0
  tag := 0
  originType := .igp
  protocol := .staticRoute
  clusterList := .ofList []
  communities := .ofList [.standard ⟨0, 0⟩]
  asPath := .empty
  nextHop := .ip (.ofOctets 10 0 0 1)
  originatorIp := .unspecified
  receivedFrom := .selfOrigin
  originMechanism := .learned

/-- **With the least texts** a route represents its classes, over every domain that has the names
that it and its environment use. -/
theorem representable_leastTexts {d : Domain} (hd : d.Valid) {hop : NextHop} {e : Environment}
    (hhop : ∀ n ∈ hop.interface?, n ∈ d.nextHopInterfaces)
    (hvrf : ∀ n ∈ e.sourceVrf, n ∈ d.sourceVrfs) (htracks : e.successfulTracks.Sublist d.tracks) :
    Decoding.Representable d { staticRoute with nextHop := hop } e where
  network := (by decide : staticRoute.network.truncate = staticRoute.network)
  clusterList := ⟨0, by decide, rfl⟩
  originatorIp := rfl
  receivedFrom := rfl
  originMechanism := rfl
  standard c hc a ha haccepts := by
    have hmem : Community.standard c ∈ [Community.standard ⟨0, 0⟩] := hc
    obtain rfl := Community.standard.inj (List.mem_singleton.1 hmem)
    exact hd.isLeast_community ha haccepts
  other c hc hother := by
    have hmem : c ∈ [Community.standard ⟨0, 0⟩] := hc
    obtain rfl := List.mem_singleton.1 hmem
    exact nomatch hother
  single := (by decide : ∀ hop ∈ staticRoute.asPath.hops, hop.isSingle = true)
  asPath a ha haccepts := hd.isLeast_asPath ha haccepts
  nextHopInterface := hhop
  sourceVrf := hvrf
  tracks := htracks

/-- A model can be read if it leaves the communities open and has the least AS path. -/
theorem readableAt_leastTexts {d : Domain} (hd : d.Valid) {r : Route} (hr : r.asPath = .empty)
    (e : Environment) {p : Assignment}
    (hopen : ∀ i, Layout.listStart ≤ i → i < d.asPathStart → p i = none)
    (hpath : ∀ i, d.asPathStart ≤ i → i < d.trackStart → p i = some (encode d r e i)) :
    d.ReadableAt p.fill where
  communities i a ha hi := by
    have hlt : i < d.communityCount :=
      Nat.lt_of_lt_of_le (List.getElem?_eq_some_iff.1 ha).1 (Nat.le_add_right _ _)
    have hnone := hopen _ (Nat.le_add_right _ i) (Nat.add_lt_add_left hlt _)
    exact nomatch hnone.symm.trans (Assignment.eq_some_of_fill hi)
  asPaths i a ha hi := by
    have hlt : i < d.asPaths.size := (List.getElem?_eq_some_iff.1 ha).1
    have hfixed := hpath _ (Nat.le_add_right _ i) (Nat.add_lt_add_left hlt _)
    have hflag := getElem?_block (encode d r e) d.asPathStart hlt
    rw [(encodes_encode d r e).asPaths, ← hfixed, Assignment.eq_some_of_fill hi,
      asPathFlags_part ha, hr] at hflag
    exact ⟨[], hd.isLeast_asPath (List.mem_of_getElem? ha) hflag⟩

theorem representable_staticRoute : Decoding.Representable .nameless staticRoute ⟨[], none⟩ :=
  representable_leastTexts Domain.valid_nameless nofun nofun .slnil

end RouteSolver
