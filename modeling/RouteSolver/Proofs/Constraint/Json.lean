/-
# Constraints read back from JSON

What is written for a constraint is one record, tagged with its kind (`Constraint.toJson_eq`). From
its kind and its fields the constraint is read again, within a bound that its depth settles
(`Constraint.ofJsonWithin_toJson`). A constraint that lies too deep is not looked at, so it goes
round where its depth admits it (`Constraint.roundTrip`). What is written for a constraint is no
deeper than what it has been read from, however that was spelled (`Constraint.depth_toJson_le`).
-/

import RouteSolver.Proofs.Route.Json
import RouteSolver.Scenario.Json

namespace RouteSolver

open Json

namespace Constraint

/-! ### Kinds and fields -/

/-- The kind that a constraint is tagged with. -/
def kind : Constraint → String
  | .protocol _ => "protocol"
  | .originType _ => "origin_type"
  | .within field _ _ => field.keyword
  | .prefixWithin _ _ _ => "prefix_within"
  | .nextHopWithin _ => "next_hop_within"
  | .community _ _ => "community"
  | .asPath _ => "as_path"
  | .nextHopInterface _ => "next_hop_interface"
  | .track _ => "track"
  | .sourceVrf _ => "source_vrf"
  | .not _ => "not"
  | .allOf _ => "all_of"
  | .anyOf _ => "any_of"

/-- The fields that are written for a constraint besides its kind. -/
def fields : Constraint → List (String × Json)
  | .protocol p => [("protocol", p.toJson)]
  | .originType o => [("origin_type", o.toJson)]
  | .within _ min max =>
    [("min", Json.ofOption Json.ofWord32 min), ("max", Json.ofOption Json.ofWord32 max)]
  | .prefixWithin network minLength maxLength =>
    [("network", network.toJson), ("min_length", Json.ofOption ofWord8 minLength),
      ("max_length", Json.ofOption ofWord8 maxLength)]
  | .nextHopWithin network => [("network", network.toJson)]
  | .community literal regex =>
    [("literal", Json.ofOption Community.toJson literal),
      ("regex", Json.ofOption Json.text regex)]
  | .asPath regex => [("regex", .text regex)]
  | .nextHopInterface name | .track name | .sourceVrf name => [("name", .text name)]
  | .not c => [("constraint", c.toJson)]
  | .allOf cs | .anyOf cs => [("constraints", .list (toJsons cs))]

/-- The constraint holds no other constraint. -/
def IsLeaf : Constraint → Prop
  | .not _ | .allOf _ | .anyOf _ => False
  | _ => True

/-- **A constraint is written** as its kind and its fields. -/
theorem toJson_eq (c : Constraint) : c.toJson = ofKind c.kind c.fields := by cases c <;> rfl

theorem toJsons_eq_map (cs : List Constraint) : toJsons cs = cs.map toJson := by
  induction cs with
  | nil => rfl
  | cons c cs ih => rw [toJsons, ih, List.map_cons]

theorem contains_kind (c : Constraint) : kinds.contains c.kind = true := by
  cases c with
  | within field => cases field <;> rfl
  | _ => rfl

/-- **The kind is found again** when it is taken off what is written. -/
theorem tagged_toJson (c : Constraint) (nested : Bool) :
    c.toJson.tagged "kind" kinds nested = some (c.kind, record c.fields) := by
  rw [toJson_eq, ofKind]
  refine tagged_record _ _ _ _ c.contains_kind (fun f hf => ?_) nested
  have hnames : ∀ n ∈ c.fields.map (·.1), n ≠ "kind" := by
    cases c <;> simp [fields]
  exact hnames _ (List.mem_map_of_mem hf)

/-! ### Depths -/

theorem depth_toJson (c : Constraint) : c.toJson.depth = depthOfFields c.fields + 1 := by
  rw [toJson_eq, ofKind, depth, depthOfFields, depth, Nat.zero_max]

theorem depth_of_isLeaf {c : Constraint} (hleaf : c.IsLeaf) : c.toJson.depth = 1 := by
  rw [depth_toJson]
  cases c with
  | within _ min max => cases min <;> cases max <;> rfl
  | prefixWithin _ minLength maxLength => cases minLength <;> cases maxLength <;> rfl
  | community literal regex => cases literal <;> cases regex <;> rfl
  | not _ | allOf _ | anyOf _ => exact hleaf.elim
  | _ => rfl

theorem depth_not (c : Constraint) : (Constraint.not c).toJson.depth = c.toJson.depth + 1 := by
  rw [depth_toJson, fields, depthOfFields, depthOfFields, Nat.max_zero]

theorem depth_allOf (cs : List Constraint) :
    (allOf cs).toJson.depth = depthOfItems (toJsons cs) + 2 := by
  rw [depth_toJson, fields, depthOfFields, depthOfFields, Nat.max_zero, depth]

theorem depth_anyOf (cs : List Constraint) :
    (anyOf cs).toJson.depth = depthOfItems (toJsons cs) + 2 := by
  rw [depth_toJson, fields, depthOfFields, depthOfFields, Nat.max_zero, depth]

/-! ### Constraints that hold no other -/

/-- The number that a constraint bounds, if it bounds one. -/
def numberField? : Constraint → Option NumberField
  | .within field _ _ => some field
  | _ => none

theorem ofKeyword?_kind (c : Constraint) : NumberField.ofKeyword? c.kind = c.numberField? := by
  cases c with
  | within field => cases field <;> rfl
  | _ => rfl

/-- **A constraint that holds no other** is read from its kind and fields. -/
theorem leafOfJson?_fields {c : Constraint} (hleaf : c.IsLeaf) :
    leafOfJson? c.kind (record c.fields) = some c := by
  have hslots : ∀ names : List String, c.fields.map (·.1) = names → names.Nodup →
      (record c.fields).slots names false = some (c.fields.map fun f => .given f.2) :=
    fun names hnames hnodup => slots_record names c.fields hnames hnodup false
  have hword := fun o : Option UInt32 => (RoundTrip.option (o := o) (fun n _ => .word32 n) rfl).2
  have hbyte : ∀ o : Option UInt8, (Slot.given (ofOption ofWord8 o)).optional word8? = some o :=
    fun _ => (RoundTrip.option (fun n _ => .word8 n) rfl).2
  unfold leafOfJson?
  rw [ofKeyword?_kind]
  cases c with
  | protocol p =>
    simp only [numberField?, kind]
    rw [hslots ["protocol"] rfl (by decide)]
    simp only [fields, Option.bind_eq_bind, Option.bind_some, List.map_cons, List.map_nil,
      Slot.required, (p.roundTrip true).reads]
    rfl
  | originType o =>
    simp only [numberField?, kind]
    rw [hslots ["origin_type"] rfl (by decide)]
    simp only [fields, Option.bind_eq_bind, Option.bind_some, List.map_cons, List.map_nil,
      Slot.required, (o.roundTrip true).reads]
    rfl
  | within field min max =>
    simp only [numberField?]
    rw [hslots ["min", "max"] rfl (by decide)]
    simp only [fields, Option.bind_eq_bind, Option.bind_some, List.map_cons, List.map_nil, hword]
    rfl
  | prefixWithin network minLength maxLength =>
    simp only [numberField?, kind]
    rw [hslots ["network", "min_length", "max_length"] rfl (by decide)]
    simp only [fields, Option.bind_eq_bind, Option.bind_some, List.map_cons, List.map_nil,
      Slot.required, network.roundTrip.reads, hbyte]
    rfl
  | nextHopWithin network =>
    simp only [numberField?, kind]
    rw [hslots ["network"] rfl (by decide)]
    simp only [fields, Option.bind_eq_bind, Option.bind_some, List.map_cons, List.map_nil,
      Slot.required, network.roundTrip.reads]
    rfl
  | community literal regex =>
    have hliteral := (RoundTrip.option (o := literal) (fun c _ => c.roundTrip) rfl).2
    have hregex := (RoundTrip.option (o := regex) (fun s _ => .text s) rfl).2
    simp only [numberField?, kind]
    rw [hslots ["literal", "regex"] rfl (by decide)]
    simp only [fields, Option.bind_eq_bind, Option.bind_some, List.map_cons, List.map_nil,
      hliteral, hregex]
    rfl
  | asPath regex =>
    simp only [numberField?, kind]
    rw [hslots ["regex"] rfl (by decide)]
    rfl
  | nextHopInterface name | track name | sourceVrf name =>
    simp only [numberField?, kind]
    rw [hslots ["name"] rfl (by decide)]
    rfl
  | not _ | allOf _ | anyOf _ => exact hleaf.elim

/-- What a computation comes to, if to anything, holds no other constraint. -/
def YieldsLeaf (o : Option Constraint) : Prop := ∀ c, o = some c → c.IsLeaf

theorem YieldsLeaf.none : YieldsLeaf none := nofun

theorem YieldsLeaf.some {c : Constraint} (h : c.IsLeaf) : YieldsLeaf (some c) := fun d hd => by
  obtain rfl : c = d := Option.some.inj hd
  exact h

theorem YieldsLeaf.bind {α : Type} {o : Option α} {f : α → Option Constraint}
    (h : ∀ a, YieldsLeaf (f a)) : YieldsLeaf (o.bind f) := fun c hc => by
  obtain ⟨a, -, ha⟩ := Option.bind_eq_some_iff.1 hc
  exact h a c ha

/-- A kind that holds no other constraint is read as such. -/
theorem yieldsLeaf_leafOfJson? (kind : String) (j : Json) : YieldsLeaf (leafOfJson? kind j) := by
  unfold leafOfJson?
  split
  · refine .bind fun ss => ?_
    split
    · exact .bind fun _ => .bind fun _ => .some trivial
    · exact .none
  split <;> refine .bind fun ss => ?_ <;> split
  · exact .bind fun _ => .some trivial
  · exact .none
  · exact .bind fun _ => .some trivial
  · exact .none
  · exact .bind fun _ => .bind fun _ => .bind fun _ => .some trivial
  · exact .none
  · exact .bind fun _ => .some trivial
  · exact .none
  · exact .bind fun _ => .bind fun _ => .some trivial
  · exact .none
  · exact .bind fun _ => .some trivial
  · exact .none
  · refine .bind fun name => ?_
    split
    · exact .some trivial
    · exact .some trivial
    · exact .some trivial
    · exact .none
  · exact .none

/-! ### Constraints inside each other -/

theorem ofJsonWithin_leaf {bound : Nat} {nested : Bool} {c : Constraint} (hleaf : c.IsLeaf) :
    ofJsonWithin (bound + 1) nested c.toJson = some c := by
  have hkind : c.kind ≠ "not" ∧ c.kind ≠ "all_of" ∧ c.kind ≠ "any_of" := by
    cases c with
    | within field => cases field <;> simp [kind, NumberField.keyword]
    | not _ | allOf _ | anyOf _ => exact hleaf.elim
    | _ => simp [kind]
  rw [ofJsonWithin, tagged_toJson]
  simp only [Option.bind_eq_bind, Option.bind_some, hkind, if_false, decide_false, Bool.or_self,
    Bool.false_eq_true]
  exact leafOfJson?_fields hleaf

theorem slots_constraints (js : List Json) :
    (record [("constraints", .list js)]).slots ["constraints"] false = some [.given (.list js)] :=
  slots_record ["constraints"] [("constraints", .list js)] rfl (by decide) false

mutual
/-- **A constraint is read back** if the bound admits its depth. -/
theorem ofJsonWithin_toJson : ∀ (c : Constraint) (bound : Nat) (nested : Bool),
    c.toJson.depth ≤ bound → ofJsonWithin bound nested c.toJson = some c
  | c, 0, _, h => by
    rw [depth_toJson] at h
    exact absurd h (Nat.not_succ_le_zero _)
  | .not c, bound + 1, nested, h => by
    rw [depth_not] at h
    have hc := ofJsonWithin_toJson c bound true (Nat.le_of_succ_le_succ h)
    have hslots := slots_record ["constraint"] [("constraint", c.toJson)] rfl (by decide) false
    rw [ofJsonWithin, tagged_toJson]
    simp only [kind, fields, Option.bind_eq_bind, Option.bind_some, if_true, hslots, List.map_cons,
      List.map_nil, Slot.required, hc]
    rfl
  | .allOf cs, bound + 1, nested, h => by
    rw [depth_allOf] at h
    have hcs := mapM_ofJsonWithin_toJsons cs bound (by omega)
    rw [ofJsonWithin, tagged_toJson]
    simp only [kind, fields, Option.bind_eq_bind, Option.bind_some, String.reduceEq, if_false,
      if_true, decide_true, decide_false, Bool.true_or, slots_constraints,
      Slot.required, listOf?, hcs]
    rfl
  | .anyOf cs, bound + 1, nested, h => by
    rw [depth_anyOf] at h
    have hcs := mapM_ofJsonWithin_toJsons cs bound (by omega)
    rw [ofJsonWithin, tagged_toJson]
    simp only [kind, fields, Option.bind_eq_bind, Option.bind_some, String.reduceEq, if_false,
      if_true, decide_true, decide_false, Bool.or_true, slots_constraints,
      Slot.required, listOf?, hcs]
    rfl
  | .protocol _, bound + 1, _, _ | .originType _, bound + 1, _, _ | .within _ _ _, bound + 1, _, _
  | .prefixWithin _ _ _, bound + 1, _, _ | .nextHopWithin _, bound + 1, _, _
  | .community _ _, bound + 1, _, _ | .asPath _, bound + 1, _, _
  | .nextHopInterface _, bound + 1, _, _ | .track _, bound + 1, _, _
  | .sourceVrf _, bound + 1, _, _ => ofJsonWithin_leaf trivial

theorem mapM_ofJsonWithin_toJsons : ∀ (cs : List Constraint) (bound : Nat),
    depthOfItems (toJsons cs) ≤ bound →
    (toJsons cs).mapM (ofJsonWithin bound true) = some cs
  | [], _, _ => rfl
  | c :: cs, bound, h => by
    obtain ⟨hc, hcs⟩ := Nat.max_le.1 h
    rw [toJsons, List.mapM_cons, ofJsonWithin_toJson c bound true hc,
      mapM_ofJsonWithin_toJsons cs bound hcs]
    rfl
end

/-! ### What is written is no deeper than what was read -/

theorem depthOfItems_toJsons_lt {read : Json → Option Constraint} {x : Json}
    {cs : List Constraint} (hread : ∀ k c, read k = some c → c.toJson.depth ≤ k.depth)
    (h : x.listOf? read = some cs) : depthOfItems (toJsons cs) < x.depth := by
  obtain ⟨items, rfl, hitems⟩ := exists_of_listOf? h
  rw [toJsons_eq_map]
  refine Nat.lt_succ_of_le (depthOfItems_le (List.forall_mem_map.2 fun c hc => ?_))
  obtain ⟨k, hk, hkc⟩ := hitems c hc
  exact Nat.le_trans (hread k c hkc) (depth_le_of_mem hk)

/-- **What is written for a constraint** is no deeper than what the constraint was read from. -/
theorem depth_toJson_le {bound : Nat} {nested : Bool} {j : Json} {c : Constraint}
    (h : ofJsonWithin bound nested j = some c) : c.toJson.depth ≤ j.depth := by
  induction bound generalizing nested j c with
  | zero => nomatch h
  | succ bound ih =>
    rw [ofJsonWithin] at h
    obtain ⟨⟨kind, fields⟩, htagged, h⟩ := Option.bind_eq_some_iff.1 h
    have hfields := depth_of_tagged htagged
    dsimp only at h
    split at h
    · -- a negation lies one level above what it negates
      obtain ⟨ss, hslots, h⟩ := Option.bind_eq_some_iff.1 h
      split at h
      · obtain ⟨d, hd, hc⟩ := Option.bind_eq_some_iff.1 h
        obtain ⟨x, hx, hread⟩ := exists_of_required hslots (List.mem_singleton_self _) hd
        have hle := ih hread
        rw [← Option.some.inj hc, depth_not]
        omega
      · nomatch h
    split at h
    · -- and a list of constraints two levels above its members
      obtain ⟨ss, hslots, h⟩ := Option.bind_eq_some_iff.1 h
      split at h
      · obtain ⟨cs, hcs, hc⟩ := Option.bind_eq_some_iff.1 h
        obtain ⟨x, hx, hread⟩ := exists_of_required hslots (List.mem_singleton_self _) hcs
        have hlt := depthOfItems_toJsons_lt (fun _ _ => ih) hread
        have hdepth : c.toJson.depth = depthOfItems (toJsons cs) + 2 := by
          rw [← Option.some.inj hc]
          split
          · exact depth_allOf cs
          · exact depth_anyOf cs
        omega
      · nomatch h
    · rw [depth_of_isLeaf (yieldsLeaf_leafOfJson? _ _ _ h)]
      exact depth_pos_of_tagged htagged

/-! ### Constraints in place -/

theorem isWritable_of_fields {c : Constraint} (h : ∀ f ∈ c.fields, f.2.isWritable = true) :
    c.toJson.isWritable = true := by
  rw [toJson_eq, ofKind, isWritable, areWritableFields_iff]
  exact List.forall_mem_cons.2 ⟨rfl, h⟩

theorem isWritable_of_isLeaf {c : Constraint} (hleaf : c.IsLeaf) : c.toJson.isWritable = true := by
  have hword := fun o : Option UInt32 => (RoundTrip.option (o := o) (fun n _ => .word32 n) rfl).1
  have hbyte : ∀ o : Option UInt8, (ofOption ofWord8 o).isWritable = true :=
    fun _ => (RoundTrip.option (fun n _ => .word8 n) rfl).1
  refine isWritable_of_fields ?_
  cases c with
  | protocol p => exact List.forall_mem_singleton.2 (p.roundTrip true).writable
  | originType o => exact List.forall_mem_singleton.2 (o.roundTrip true).writable
  | within _ min max =>
    exact List.forall_mem_cons.2 ⟨hword min, List.forall_mem_singleton.2 (hword max)⟩
  | prefixWithin _ minLength maxLength =>
    exact List.forall_mem_cons.2 ⟨rfl, List.forall_mem_cons.2
      ⟨hbyte minLength, List.forall_mem_singleton.2 (hbyte maxLength)⟩⟩
  | community literal regex =>
    have hliteral := (RoundTrip.option (o := literal) (fun c _ => c.roundTrip) rfl).1
    have hregex := (RoundTrip.option (o := regex) (fun s _ => .text s) rfl).1
    exact List.forall_mem_cons.2 ⟨hliteral, List.forall_mem_singleton.2 hregex⟩
  | nextHopWithin _ | asPath _ | nextHopInterface _ | track _ | sourceVrf _ =>
    exact List.forall_mem_singleton.2 rfl
  | not _ | allOf _ | anyOf _ => exact hleaf.elim

mutual
theorem isWritable_toJson : ∀ c : Constraint, c.toJson.isWritable = true
  | .not c => isWritable_of_fields (List.forall_mem_singleton.2 (isWritable_toJson c))
  | .allOf cs | .anyOf cs =>
    isWritable_of_fields (List.forall_mem_singleton.2 (areWritable_toJsons cs))
  | .protocol _ | .originType _ | .within _ _ _ | .prefixWithin _ _ _ | .nextHopWithin _
  | .community _ _ | .asPath _ | .nextHopInterface _ | .track _ | .sourceVrf _ =>
    isWritable_of_isLeaf trivial

theorem areWritable_toJsons : ∀ cs : List Constraint, areWritable (toJsons cs) = true
  | [] => rfl
  | c :: cs => by
    rw [toJsons, areWritable, isWritable_toJson c, areWritable_toJsons cs]
    rfl
end

/-- **A constraint goes round** under as many others as its depth admits. -/
theorem roundTrip {around : Nat} {c : Constraint} (h : around + c.toJson.depth ≤ depthLimit) :
    RoundTrip toJson (ofJson? around) c where
  writable := c.isWritable_toJson
  reads := by
    have hreadable := isReadable_of_isWritable _ c.isWritable_toJson
    rw [ofJson?, hreadable, if_neg (by simpa using h)]
    exact ofJsonWithin_toJson c _ false (Nat.le_refl _)

/-- A constraint that has been read is not too deep to be read again. -/
theorem depth_le_of_ofJson? {around : Nat} {j : Json} {c : Constraint}
    (h : ofJson? around j = some c) : around + c.toJson.depth ≤ depthLimit := by
  rw [ofJson?] at h
  split at h
  · nomatch h
  · rename_i hseen
    have hle := depth_toJson_le h
    simp only [Bool.or_eq_true, Bool.not_eq_true', decide_eq_true_eq, not_or, Nat.not_lt] at hseen
    omega

end Constraint

end RouteSolver
