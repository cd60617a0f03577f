/-
# Routes read back from JSON

Routes, environments and their parts go round: addresses, networks and communities by their texts,
sets because listing one and collecting the list gives the set again (`AscendingSet.ofList_toList`),
and records because all their fields do (`Route.roundTrip`, `Environment.roundTrip`). A next hop is
looked at as a whole before it is read, which is no obstacle where it stands (`NextHop.roundTrip`).
-/

import RouteSolver.Proofs.Json.Record
import RouteSolver.Proofs.Route.AscendingSet
import RouteSolver.Proofs.Route.Network
import RouteSolver.Proofs.Route.Texts
import RouteSolver.Route.Json

namespace RouteSolver

open Json

theorem AscendingSet.ofList_toList {α : Type} [Ranked α] [RankInjective α] (s : AscendingSet α) :
    ofList s.toList = s := ext_mem fun _ => mem_ofList

/-! ### What is written as a text -/

theorem Address.roundTrip (a : Address) : RoundTrip toJson ofJson? a where
  writable := rfl
  reads := by
    simp only [toJson, ofJson?, text?, Option.bind_eq_bind, Option.bind_some, read?_text]

theorem Network.roundTrip (n : Network) : RoundTrip toJson ofJson? n where
  writable := rfl
  reads := by
    simp only [toJson, ofJson?, text?, Option.bind_eq_bind, Option.bind_some, read?_text]

theorem Community.roundTrip (c : Community) : RoundTrip toJson ofJson? c where
  writable := rfl
  reads := by
    simp only [toJson, ofJson?, text?, Option.bind_eq_bind, Option.bind_some, read?_text]

theorem Protocol.roundTrip (lax : Bool) (p : Protocol) : RoundTrip toJson (ofJson? lax) p := by
  cases p <;> exact ⟨rfl, rfl⟩

theorem OriginType.roundTrip (lax : Bool) (o : OriginType) : RoundTrip toJson (ofJson? lax) o := by
  cases o <;> exact ⟨rfl, rfl⟩

theorem OriginMechanism.roundTrip (m : OriginMechanism) : RoundTrip toJson ofJson? m := by
  cases m <;> exact ⟨rfl, rfl⟩

/-! ### Paths and hops -/

theorem AsSet.roundTrip (s : AsSet) : RoundTrip toJson ofJson? s := by
  obtain ⟨hwritable, hreads⟩ := RoundTrip.list s.numbers.toList fun n _ => .word32 n
  refine ⟨hwritable, ?_⟩
  rw [toJson, ofJson?, hreads, Option.map_some, ofList, AscendingSet.ofList_toList]

theorem AsPath.roundTrip (p : AsPath) : RoundTrip toJson ofJson? p := by
  obtain ⟨hwritable, hreads⟩ := RoundTrip.list p.hops fun s _ => s.roundTrip
  refine ⟨hwritable, ?_⟩
  rw [toJson, ofJson?, hreads, Option.map_some]

theorem ReceivedFrom.roundTrip (r : ReceivedFrom) : RoundTrip toJson ofJson? r := by
  cases r with
  | selfOrigin => exact ⟨rfl, rfl⟩
  | ip a =>
    refine ⟨rfl, ?_⟩
    rw [toJson, ofJson?, a.roundTrip.reads, Option.map_some]

/-- A next hop lies two levels deep at most, so there is room for it under many others. -/
theorem NextHop.roundTrip {around : Nat} (haround : around < depthLimit) (h : NextHop) :
    RoundTrip toJson (ofJson? around) h := by
  have hdepth : h.toJson.depth = 1 := by cases h <;> rfl
  have hreadable : h.toJson.isReadable = true := by cases h <;> rfl
  have hseen : (!h.toJson.isReadable || decide (depthLimit < around + h.toJson.depth)) = false := by
    rw [hreadable, hdepth]
    exact decide_eq_false (Nat.not_lt.2 haround)
  refine ⟨by cases h <;> rfl, ?_⟩
  rw [ofJson?]
  simp only [hseen, Bool.false_eq_true, if_false]
  cases h with
  | ip a =>
    have htagged := tagged_record "type" "ip" ["ip", "interface"] [("ip", a.toJson)]
      (by decide) (by simp) false
    have hslots := slots_record ["ip"] [("ip", a.toJson)] rfl (by decide) false
    simp only [toJson, htagged, hslots, Option.bind_eq_bind, Option.bind_some, List.map_cons,
      List.map_nil, Slot.required, a.roundTrip.reads]
    rfl
  | interface name a =>
    have htagged := tagged_record "type" "interface" ["ip", "interface"]
      [("interface", .text name), ("ip", a.toJson)] (by decide) (by simp) false
    have hslots := slots_record ["interface", "ip"]
      [("interface", .text name), ("ip", a.toJson)] rfl (by decide) false
    simp only [toJson, htagged, hslots, Option.bind_eq_bind, Option.bind_some, List.map_cons,
      List.map_nil, Slot.required, text?, a.roundTrip.reads]
    rfl

/-! ### Records -/

theorem Route.roundTrip (r : Route) : RoundTrip toJson ofJson? r := by
  have hclusters := RoundTrip.list r.clusterList.toList fun n _ => .word32 n
  have hcommunities := RoundTrip.list r.communities.toList fun c _ => c.roundTrip
  have hnextHop := r.nextHop.roundTrip (show 1 < depthLimit by decide)
  refine ⟨?_, ?_⟩
  · rw [toJson]
    refine isWritable_zip ?_
    simp only [List.forall_mem_cons, r.network.roundTrip.writable, (RoundTrip.word32 _).writable,
      (r.originType.roundTrip false).writable, (r.protocol.roundTrip false).writable,
      hclusters.writable, hcommunities.writable, r.asPath.roundTrip.writable, hnextHop.writable,
      r.originatorIp.roundTrip.writable, r.receivedFrom.roundTrip.writable,
      r.originMechanism.roundTrip.writable, true_and]
    exact List.forall_mem_nil _
  · rw [toJson, ofJson?, slots_zip_bind rfl (by decide)]
    refine (r.network.roundTrip.required_bind _).trans ?_
    rw [(RoundTrip.word32 _).required_bind, (RoundTrip.word32 _).required_bind,
      (RoundTrip.word32 _).required_bind, (RoundTrip.word32 _).required_bind,
      (r.originType.roundTrip _).required_bind, (r.protocol.roundTrip _).required_bind,
      hclusters.required_bind, hcommunities.required_bind, r.asPath.roundTrip.required_bind,
      hnextHop.required_bind,
      r.originatorIp.roundTrip.required_bind, r.receivedFrom.roundTrip.required_bind,
      r.originMechanism.roundTrip.required_bind, AscendingSet.ofList_toList,
      AscendingSet.ofList_toList]
    rfl

theorem Environment.roundTrip (e : Environment) : RoundTrip toJson ofJson? e := by
  have htracks := RoundTrip.list e.successfulTracks fun s _ => .text s
  have hvrf := RoundTrip.option (o := e.sourceVrf) (fun s _ => .text s) rfl
  have hslots := slots_record ["successful_tracks", "source_vrf"]
    [("successful_tracks", Json.ofList Json.text e.successfulTracks),
      ("source_vrf", Json.ofOption Json.text e.sourceVrf)] rfl (by decide) false
  refine ⟨?_, ?_⟩
  · rw [toJson, isWritable, areWritableFields_iff]
    simp only [List.forall_mem_cons, htracks.writable, hvrf.1, true_and]
    exact List.forall_mem_nil _
  · simp only [toJson, ofJson?, hslots, Option.bind_eq_bind, Option.bind_some, List.map_cons,
      List.map_nil, Slot.required, htracks.reads, hvrf.2]
    rfl

end RouteSolver
