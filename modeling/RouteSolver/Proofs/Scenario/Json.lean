/-
# Scenarios read back from JSON

Names and preferences go round, and a scenario does if none of its constraints lies too deep
(`Scenario.roundTrip`). In a scenario that has been read none does, because writing a constraint
makes it no deeper (`Scenario.depth_le_of_ofJson?`). So writing a scenario that has been read and
reading it again changes nothing; this and the same of all other data is `json_readsBack`.
-/

import RouteSolver.Proofs.Constraint.Json

namespace RouteSolver

open Json

/-! ### Names and preferences -/

theorem NameList.roundTrip (n : NameList) : RoundTrip toJson ofJson? n := by
  have htexts : ∀ xs : List String,
      RoundTrip (Json.ofList Json.text) (Json.listOf? Json.text?) xs := fun xs =>
    .list xs fun s _ => .text s
  refine ⟨?_, ?_⟩
  · rw [toJson]
    refine isWritable_zip (List.forall_mem_map.2 fun xs _ => (htexts xs).writable)
  · rw [toJson, ofJson?, slots_zip_bind rfl (by decide)]
    refine ((htexts n.communities).withDefault_bind [] _).trans ?_
    refine ((htexts n.communityRegexes).withDefault_bind [] _).trans ?_
    refine ((htexts n.asPathRegexes).withDefault_bind [] _).trans ?_
    refine ((htexts n.tracks).withDefault_bind [] _).trans ?_
    refine ((htexts n.sourceVrfs).withDefault_bind [] _).trans ?_
    exact (htexts n.nextHopInterfaces).withDefault_bind [] _

theorem Preferences.roundTrip (p : Preferences) : RoundTrip toJson ofJson? p := by
  have hprefixes := RoundTrip.list p.prefixes fun n _ => n.roundTrip
  refine ⟨?_, ?_⟩
  · rw [toJson]
    refine isWritable_zip ?_
    simp only [List.forall_mem_cons, (p.protocol.roundTrip false).writable,
      (RoundTrip.word32 _).writable, hprefixes.writable, p.minAddress.roundTrip.writable,
      (RoundTrip.word8 _).writable, true_and]
    exact List.forall_mem_nil _
  · rw [toJson, ofJson?, slots_zip_bind rfl (by decide)]
    refine ((p.protocol.roundTrip _).withDefault_bind _ _).trans ?_
    rw [(RoundTrip.word32 _).withDefault_bind,
      hprefixes.withDefault_bind, p.minAddress.roundTrip.withDefault_bind,
      (RoundTrip.word8 _).withDefault_bind]
    rfl

/-! ### Scenarios -/

namespace Scenario

/-- **A scenario goes round** if none of its constraints lies too deep. -/
theorem roundTrip {s : Scenario} (h : ∀ c ∈ s.constraints, 2 + c.toJson.depth ≤ depthLimit) :
    RoundTrip toJson ofJson? s := by
  have hconstraints := RoundTrip.list s.constraints fun c hc =>
    Constraint.roundTrip (h c hc)
  have hlist : .list (Constraint.toJsons s.constraints) =
      Json.ofList Constraint.toJson s.constraints := by rw [Json.ofList, Constraint.toJsons_eq_map]
  refine ⟨?_, ?_⟩
  · rw [toJson, hlist]
    refine isWritable_zip ?_
    simp only [List.forall_mem_cons, s.names.roundTrip.writable, hconstraints.writable,
      s.preferences.roundTrip.writable, true_and]
    exact List.forall_mem_nil _
  · rw [toJson, ofJson?, slots_zip_bind rfl (by decide), hlist]
    refine (s.names.roundTrip.withDefault_bind _ _).trans ?_
    rw [hconstraints.withDefault_bind,
      s.preferences.roundTrip.withDefault_bind]
    rfl

/-- The constraints of a scenario that has been read do not lie too deep. -/
theorem depth_le_of_ofJson? {j : Json} {s : Scenario} (h : ofJson? j = some s) :
    ∀ c ∈ s.constraints, 2 + c.toJson.depth ≤ depthLimit := by
  obtain ⟨ss, -, h⟩ := Option.bind_eq_some_iff.1 h
  split at h
  · obtain ⟨names, -, h⟩ := Option.bind_eq_some_iff.1 h
    obtain ⟨cs, hcs, h⟩ := Option.bind_eq_some_iff.1 h
    obtain ⟨preferences, -, h⟩ := Option.bind_eq_some_iff.1 h
    obtain rfl := Option.some.inj h
    rcases Slot.of_withDefault hcs with rfl | ⟨x, hx⟩
    · exact List.forall_mem_nil _
    · obtain ⟨items, -, hitems⟩ := exists_of_listOf? hx
      intro c hc
      obtain ⟨k, -, hk⟩ := hitems c hc
      exact Constraint.depth_le_of_ofJson? hk
  · nomatch h

end Scenario

/-! ### All that is written -/

/-- Written in either way and read again, a value is the same. -/
def ReadsBack {α : Type} (write : α → Json) (read : Json → Option α) (a : α) : Prop :=
  (Json.read? (write a).compact).bind read = some a ∧
    (Json.read? (write a).pretty).bind read = some a

theorem Json.RoundTrip.readsBack {α : Type} {write : α → Json} {read : Json → Option α} {a : α}
    (h : RoundTrip write read a) : ReadsBack write read a := ⟨h.compact, h.pretty⟩

/-- **What is written is read back.** A scenario that has been read from a text, however that was
spelled, is read back from what is written for it. So is every route, environment, AS path, next
hop, community and list of names, and so are all preferences. -/
theorem json_readsBack :
    (∀ text s, Scenario.read? text = some s →
      Scenario.read? s.toJson.compact = some s ∧ Scenario.read? s.toJson.pretty = some s) ∧
    (∀ r, ReadsBack Route.toJson Route.ofJson? r) ∧
    (∀ e, ReadsBack Environment.toJson Environment.ofJson? e) ∧
    (∀ p, ReadsBack AsPath.toJson AsPath.ofJson? p) ∧
    (∀ h, ReadsBack NextHop.toJson (NextHop.ofJson? 0) h) ∧
    (∀ c, ReadsBack Community.toJson Community.ofJson? c) ∧
    (∀ n, ReadsBack NameList.toJson NameList.ofJson? n) ∧
    (∀ p, ReadsBack Preferences.toJson Preferences.ofJson? p) := by
  refine ⟨fun text s h => ?_, fun r => r.roundTrip.readsBack, fun e => e.roundTrip.readsBack,
    fun p => p.roundTrip.readsBack, fun h => (h.roundTrip (by decide)).readsBack,
    fun c => c.roundTrip.readsBack, fun n => n.roundTrip.readsBack,
    fun p => p.roundTrip.readsBack⟩
  obtain ⟨j, -, hj⟩ := Option.bind_eq_some_iff.1 h
  exact (Scenario.roundTrip (Scenario.depth_le_of_ofJson? hj)).readsBack

/-- A scenario that is written with lists for records and the number of a kind, with a network that
has host bits, and without preferences. Its constraints are written with all their names. -/
theorem json_readsBack_lists : ∃ s,
    Scenario.read? "[[], [[\"not\", [7, \"10.1.2.3/8\", null, 24]]]]" = some s ∧
    Json.compact (.list (Constraint.toJsons s.constraints)) =
      "[\x7b\"kind\":\"not\",\"constraint\":\x7b\"kind\":\"prefix_within\","
        ++ "\"network\":\"10.1.2.3/8\",\"min_length\":null,\"max_length\":24\x7d\x7d]" ∧
    Scenario.read? s.toJson.compact = some s := by
  suffices hwritten : ∀ text written,
      ((Scenario.read? text).map fun s => Json.compact (.list (Constraint.toJsons s.constraints))) =
        some written →
      ∃ s, Scenario.read? text = some s ∧
        Json.compact (.list (Constraint.toJsons s.constraints)) = written ∧
        Scenario.read? s.toJson.compact = some s from hwritten _ _ (by decide +kernel)
  intro text written h
  obtain ⟨s, hs, hcompact⟩ := Option.map_eq_some_iff.1 h
  exact ⟨s, hs, hcompact, (json_readsBack.1 text s hs).1⟩

end RouteSolver
