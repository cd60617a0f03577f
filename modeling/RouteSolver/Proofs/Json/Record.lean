/-
# Records read back

A value goes round (`RoundTrip`) if it is written as something that a text can stand for, and read
back from it; then it is also read back from the text (`RoundTrip.compact`, `RoundTrip.pretty`).
Texts and numbers go round, and lists and what may be missing do if their parts do. A record that is
written with its names is found with the same slots (`slots_record`), and a tag is taken off again
(`tagged_record`).

What is found in a value is no deeper than the value (`depth_lt_of_slots`, `depth_of_tagged`).
-/

import RouteSolver.Json.Record
import RouteSolver.Proofs.Json.Printing

namespace RouteSolver
namespace Json

/-! ### Values that texts can stand for -/

theorem areWritable_iff {js : List Json} :
    areWritable js = true ↔ ∀ j ∈ js, j.isWritable = true := by
  induction js with
  | nil => exact ⟨fun _ => nofun, fun _ => rfl⟩
  | cons j js ih => rw [areWritable, Bool.and_eq_true, ih, List.forall_mem_cons]

theorem areWritableFields_iff {fs : List (String × Json)} :
    areWritableFields fs = true ↔ ∀ f ∈ fs, f.2.isWritable = true := by
  induction fs with
  | nil => exact ⟨fun _ => nofun, fun _ => rfl⟩
  | cons f fs ih => rw [areWritableFields, Bool.and_eq_true, ih, List.forall_mem_cons]

/-- Numbers of up to twenty digits are in range. -/
theorem isWritable_natural {n : Nat} (h : n < 10 ^ 20) : (natural n).isWritable = true := by
  have hdigits := (Decimal.length_digits_le_iff (by decide)).2 h
  have hsize : (Decimal.digits n).length + 0 < 0 + 309 := by omega
  rw [isWritable, Reader.inRange]
  simp only [decide_eq_true hsize, Bool.or_true, Bool.true_or]

/-! ### Round trips -/

/-- Written as something that a text can stand for, and read back from it. -/
structure RoundTrip {α : Type} (write : α → Json) (read : Json → Option α) (a : α) : Prop where
  writable : (write a).isWritable = true
  reads : read (write a) = some a

namespace RoundTrip

section
variable {α : Type} {write : α → Json} {read : Json → Option α} {a : α}

theorem compact (h : RoundTrip write read a) :
    (Json.read? (write a).compact).bind read = some a := by
  rw [read?_compact h.writable]
  exact h.reads

theorem pretty (h : RoundTrip write read a) :
    (Json.read? (write a).pretty).bind read = some a := by
  rw [read?_pretty h.writable]
  exact h.reads

theorem text (s : String) : RoundTrip Json.text text? s := ⟨rfl, rfl⟩

theorem word32 (n : UInt32) : RoundTrip ofWord32 word32? n where
  writable := isWritable_natural (Nat.lt_trans n.toNat_lt (by decide))
  reads := by
    rw [ofWord32, word32?, natural?, if_pos (Nat.le_of_lt_succ n.toNat_lt), Option.map_some,
      UInt32.ofNat_toNat]

theorem word8 (n : UInt8) : RoundTrip (fun n : UInt8 => natural n.toNat) word8? n where
  writable := isWritable_natural (Nat.lt_trans n.toNat_lt (by decide))
  reads := by
    rw [word8?, natural?, if_pos (Nat.le_of_lt_succ n.toNat_lt), Option.map_some,
      UInt8.ofNat_toNat]

theorem list (xs : List α) (h : ∀ a ∈ xs, RoundTrip write read a) :
    RoundTrip (ofList write) (listOf? read) xs where
  writable := by
    rw [ofList, isWritable, areWritable_iff]
    exact List.forall_mem_map.2 fun a ha => (h a ha).writable
  reads := by
    rw [ofList, listOf?]
    induction xs with
    | nil => rfl
    | cons a xs ih =>
      obtain ⟨ha, hxs⟩ := List.forall_mem_cons.1 h
      rw [List.map_cons, List.mapM_cons, ha.reads, ih hxs]
      rfl

/-- **A field that goes round** is passed on to what is read after it. -/
theorem required_bind {β : Type} (h : RoundTrip write read a) (f : α → Option β) :
    (Slot.given (write a)).required read >>= f = f a := by
  rw [Slot.required, h.reads, Option.bind_eq_bind, Option.bind_some]

theorem withDefault_bind {β : Type} (h : RoundTrip write read a) (default : α) (f : α → Option β) :
    (Slot.given (write a)).withDefault default read >>= f = f a := by
  rw [Slot.withDefault, h.reads, Option.bind_eq_bind, Option.bind_some]

/-- Nothing is written as null, which is no value of the kind. -/
theorem option {o : Option α} (h : ∀ a ∈ o, RoundTrip write read a) (hnull : read null = none) :
    (ofOption write o).isWritable = true ∧
      (Slot.given (ofOption write o)).optional read = some o := by
  cases o with
  | none => exact ⟨rfl, rfl⟩
  | some a =>
    obtain ⟨hwritable, hreads⟩ := h a rfl
    refine ⟨hwritable, ?_⟩
    rw [ofOption, Slot.optional, hreads]
    · rfl
    · rintro heq
      rw [heq, hnull] at hreads
      nomatch hreads

end

end RoundTrip

/-! ### Records -/

theorem lookup_of_mem {fields : List (String × Json)} (hnodup : (fields.map (·.1)).Nodup)
    {f : String × Json} (hf : f ∈ fields) : fields.lookup f.1 = some f.2 := by
  induction fields with
  | nil => exact absurd hf List.not_mem_nil
  | cons g fields ih =>
    obtain ⟨hg, hrest⟩ := List.nodup_cons.1 hnodup
    rcases List.mem_cons.1 hf with rfl | hf
    · exact List.lookup_cons_self
    · have hne : f.1 ≠ g.1 := fun h => hg (List.mem_map.2 ⟨f, hf, h⟩)
      rw [List.lookup_cons, beq_eq_false_iff_ne.2 hne]
      exact ih hrest hf

/-- **A record with its names in their order** has all slots given. -/
theorem slots_record (names : List String) (fields : List (String × Json))
    (hnames : fields.map (·.1) = names) (hnodup : names.Nodup) (closed : Bool) :
    (record fields).slots names closed = some (fields.map fun f => .given f.2) := by
  subst hnames
  have hfound : (fields.map (·.1)).filter (fields.map (·.1)).contains = fields.map (·.1) :=
    List.filter_eq_self.2 fun n hn => List.contains_iff_mem.2 hn
  rw [slots]
  simp only [hfound, decide_eq_true hnodup, Bool.not_true, Bool.false_or, List.length_map,
    bne_self_eq_false, Bool.and_false, Bool.false_eq_true, if_false, List.map_map]
  refine congrArg some (List.map_congr_left fun f hf => ?_)
  rw [Function.comp_apply, lookup_of_mem hnodup hf]

/-- What is read from such a record is read from its values. -/
theorem slots_zip_bind {β : Type} {names : List String} {values : List Json}
    (hlength : names.length = values.length) (hnodup : names.Nodup) (closed : Bool)
    (f : List Slot → Option β) :
    (record (names.zip values)).slots names closed >>= f = f (values.map .given) := by
  have hslots := slots_record _ _ (List.map_fst_zip (Nat.le_of_eq hlength)) hnodup closed
  have hvalues : (names.zip values).map (fun f => Slot.given f.2) = values.map .given := by
    conv_rhs => rw [← List.map_snd_zip (Nat.le_of_eq hlength.symm), List.map_map]
    rfl
  rw [hslots, Option.bind_eq_bind, Option.bind_some, hvalues]

theorem isWritable_zip {names : List String} {values : List Json}
    (h : ∀ j ∈ values, j.isWritable = true) : (record (names.zip values)).isWritable = true := by
  rw [isWritable, areWritableFields_iff]
  exact fun f hf => h f.2 (List.of_mem_zip hf).2

/-- **The tag** is taken off a record that begins with it. -/
theorem tagged_record (tag word : String) (words : List String) (fields : List (String × Json))
    (hword : words.contains word = true) (hfields : ∀ f ∈ fields, f.1 ≠ tag) (byNumber : Bool) :
    (record ((tag, text word) :: fields)).tagged tag words byNumber =
      some (word, record fields) := by
  have hpartition : ((tag, text word) :: fields).partition (·.1 == tag) =
      ([(tag, text word)], fields) := by
    have hnone : fields.filter (·.1 == tag) = [] :=
      List.filter_eq_nil_iff.2 fun f hf => by simpa using hfields f hf
    have hall : fields.filter (fun f => !(f.1 == tag)) = fields :=
      List.filter_eq_self.2 fun f hf => by simpa using hfields f hf
    rw [List.partition_eq_filter_filter, Prod.mk.injEq, List.filter_cons, List.filter_cons, hnone]
    simp only [beq_self_eq_true, if_true, Function.comp_apply, Bool.not_true, Bool.false_eq_true,
      if_false, true_and]
    exact hall
  rw [tagged]
  simp only [hpartition, hword, if_true, Option.map_some]

/-! ### Depths -/

theorem depth_le_of_mem {j : Json} {js : List Json} (h : j ∈ js) : j.depth ≤ depthOfItems js := by
  induction js with
  | nil => exact absurd h List.not_mem_nil
  | cons k js ih =>
    rw [depthOfItems]
    rcases List.mem_cons.1 h with rfl | h
    · exact Nat.le_max_left ..
    · exact Nat.le_trans (ih h) (Nat.le_max_right ..)

theorem depthOfItems_le {js : List Json} {n : Nat} (h : ∀ j ∈ js, j.depth ≤ n) :
    depthOfItems js ≤ n := by
  induction js with
  | nil => exact Nat.zero_le _
  | cons j js ih =>
    obtain ⟨hj, hjs⟩ := List.forall_mem_cons.1 h
    exact Nat.max_le.2 ⟨hj, ih hjs⟩

theorem depth_le_of_mem_fields {f : String × Json} {fs : List (String × Json)} (h : f ∈ fs) :
    f.2.depth ≤ depthOfFields fs := by
  induction fs with
  | nil => exact absurd h List.not_mem_nil
  | cons g fs ih =>
    rw [depthOfFields]
    rcases List.mem_cons.1 h with rfl | h
    · exact Nat.le_max_left ..
    · exact Nat.le_trans (ih h) (Nat.le_max_right ..)

theorem depthOfFields_le {fs : List (String × Json)} {n : Nat} (h : ∀ f ∈ fs, f.2.depth ≤ n) :
    depthOfFields fs ≤ n := by
  induction fs with
  | nil => exact Nat.zero_le _
  | cons f fs ih =>
    obtain ⟨hf, hfs⟩ := List.forall_mem_cons.1 h
    exact Nat.max_le.2 ⟨hf, ih hfs⟩

/-- **What stands in a slot** is less deep than the value around it. -/
theorem depth_lt_of_slots {names : List String} {closed : Bool} {j x : Json} {ss : List Slot}
    (h : j.slots names closed = some ss) (hx : Slot.given x ∈ ss) : x.depth < j.depth := by
  unfold slots at h
  split at h
  · rename_i fields
    dsimp only at h
    split at h
    · nomatch h
    · obtain rfl := Option.some.inj h
      obtain ⟨name, -, hname⟩ := List.mem_map.1 hx
      split at hname
      · rename_i y hy
        obtain rfl : y = x := Slot.given.inj hname
        obtain ⟨before, after, rfl, -⟩ := List.lookup_eq_some_iff.1 hy
        have hmem : (name, y) ∈ before ++ (name, y) :: after :=
          List.mem_append_right _ List.mem_cons_self
        exact Nat.lt_succ_of_le (depth_le_of_mem_fields hmem)
      · nomatch hname
  · rename_i items
    split at h
    · obtain rfl := Option.some.inj h
      rcases List.mem_append.1 hx with hx | hx
      · obtain ⟨y, hy, heq⟩ := List.mem_map.1 hx
        obtain rfl : y = x := Slot.given.inj heq
        exact Nat.lt_succ_of_le (depth_le_of_mem hy)
      · nomatch List.eq_of_mem_replicate hx
    · nomatch h
  · nomatch h

/-- A field that has to be there was read from something less deep. -/
theorem exists_of_required {α : Type} {names : List String} {closed : Bool} {j : Json}
    {ss : List Slot} {slot : Slot} {read : Json → Option α} {a : α}
    (hslots : j.slots names closed = some ss) (hslot : slot ∈ ss)
    (h : slot.required read = some a) : ∃ x, x.depth < j.depth ∧ read x = some a := by
  cases slot with
  | given x => exact ⟨x, depth_lt_of_slots hslots hslot, h⟩
  | absent | cutOff => nomatch h

/-- **Without its tag** a value is no deeper. -/
theorem depth_of_tagged {tag w : String} {words : List String} {byNumber : Bool} {j rest : Json}
    (h : j.tagged tag words byNumber = some (w, rest)) : rest.depth ≤ j.depth := by
  cases j with
  | record fields =>
    rw [tagged] at h
    rcases hpartition : fields.partition (·.1 == tag) with ⟨found, others⟩
    rw [List.partition_eq_filter_filter, Prod.mk.injEq] at hpartition
    rw [List.partition_eq_filter_filter, hpartition.1, hpartition.2] at h
    have hothers : (record others).depth ≤ (record fields).depth :=
      Nat.succ_le_succ (depthOfFields_le fun f hf => depth_le_of_mem_fields
        (List.mem_filter.1 (hpartition.2 ▸ hf)).1)
    match found, h with
    | [(_, _)], h =>
      obtain ⟨_, -, heq⟩ := Option.map_eq_some_iff.1 h
      rwa [← (Prod.mk.inj heq).2]
  | list items =>
    match items, h with
    | t :: items, h =>
      obtain ⟨_, -, heq⟩ := Option.map_eq_some_iff.1 h
      rw [← (Prod.mk.inj heq).2]
      exact Nat.succ_le_succ (Nat.le_max_right ..)
  | _ => nomatch h

/-- A field with a default has it, or was read. -/
theorem Slot.of_withDefault {α : Type} {slot : Slot} {default a : α} {read : Json → Option α}
    (h : slot.withDefault default read = some a) : a = default ∨ ∃ j, read j = some a := by
  cases slot with
  | given j => exact .inr ⟨j, h⟩
  | absent | cutOff => exact .inl (Option.some.inj h).symm

/-- Only records and lists are tagged. -/
theorem depth_pos_of_tagged {tag w : String} {words : List String} {byNumber : Bool}
    {j rest : Json} (h : j.tagged tag words byNumber = some (w, rest)) : 0 < j.depth := by
  cases j with
  | record fields => exact Nat.succ_pos _
  | list items => exact Nat.succ_pos _
  | _ => nomatch h

/-- **What is read as a list** is a list, and what is read are its items. -/
theorem exists_of_listOf? {α : Type} {read : Json → Option α} {j : Json} {xs : List α}
    (h : j.listOf? read = some xs) :
    ∃ items, j = list items ∧ ∀ a ∈ xs, ∃ k ∈ items, read k = some a := by
  cases j with
  | list items =>
    refine ⟨items, rfl, ?_⟩
    rw [listOf?] at h
    induction items generalizing xs with
    | nil =>
      cases h
      exact List.forall_mem_nil _
    | cons k items ih =>
      rw [List.mapM_cons] at h
      obtain ⟨a, ha, h⟩ := Option.bind_eq_some_iff.1 h
      obtain ⟨rest, hrest, h⟩ := Option.bind_eq_some_iff.1 h
      obtain rfl := Option.some.inj h
      refine List.forall_mem_cons.2 ⟨⟨k, List.mem_cons_self, ha⟩, fun b hb => ?_⟩
      obtain ⟨k', hk', hread⟩ := ih hrest b hb
      exact ⟨k', List.mem_cons_of_mem _ hk', hread⟩
  | _ => nomatch h

end Json
end RouteSolver
