/-
# Atomic predicates partition their language

`IsPartition` says what a list of parts has to be, and every step of the refinement keeps it.
A part never lies across a language that it has been refined by (`Respects`), so a named language
consists of exactly the parts that are listed for it (`exists_find?`).
-/

import RouteSolver.Domain.Partition
import RouteSolver.Proofs.Automaton.Boolean
import RouteSolver.Proofs.Lists

namespace RouteSolver
namespace Partition

open Automaton

/-- The parts have members, no two of them share one, and together they are the whole. -/
structure IsPartition (parts : List Automaton) (whole : Automaton) : Prop where
  valid : ∀ a ∈ parts, a.Valid
  nonempty : ∀ a ∈ parts, ∃ w, a.acceptsBytes w = true
  covers : ∀ w, whole.acceptsBytes w = true ↔ ∃ a ∈ parts, a.acceptsBytes w = true
  disjoint : parts.Pairwise fun a b => ∀ w, a.acceptsBytes w = true → b.acceptsBytes w = false

/-- Every part lies inside the language or outside. -/
def Respects (parts : List Automaton) (language : Automaton) : Prop :=
  ∀ a ∈ parts, (∀ w, a.acceptsBytes w = true → language.acceptsBytes w = true) ∨
    ∀ w, a.acceptsBytes w = true → language.acceptsBytes w = false

variable {parts : List Automaton} {whole language other : Automaton}

/-! ### Refining -/

theorem isEmpty_eq_false_iff {a : Automaton} (h : a.Valid) :
    a.isEmpty = false ↔ ∃ w, a.acceptsBytes w = true := by
  rw [← Bool.not_eq_true, h.isEmpty_iff]
  simp

/-- What a part is split into. -/
def halves (language a : Automaton) : List Automaton :=
  [a.inter language, a.minus language].filter fun half => !half.isEmpty

theorem refine_eq (parts : List Automaton) (language : Automaton) :
    refine parts language = parts.flatMap (halves language) := rfl

theorem mem_halves {a b : Automaton} : b ∈ halves language a ↔
    (b = a.inter language ∨ b = a.minus language) ∧ b.isEmpty = false := by
  rw [halves, List.mem_filter, List.mem_cons, List.mem_singleton, Bool.not_eq_true']

theorem mem_refine {b : Automaton} :
    b ∈ refine parts language ↔ ∃ a ∈ parts, b ∈ halves language a := by
  rw [refine_eq, List.mem_flatMap]

section
variable {a b : Automaton} (ha : a.Valid) (hl : language.Valid)
include ha hl

theorem valid_of_mem_halves (hb : b ∈ halves language a) : b.Valid := by
  obtain ⟨rfl | rfl, -⟩ := mem_halves.1 hb
  · exact ha.inter hl
  · exact ha.minus hl

/-- A half is part of what has been split. -/
theorem subset_of_mem_halves (hb : b ∈ halves language a) (w : List UInt8)
    (hw : b.acceptsBytes w = true) : a.acceptsBytes w = true := by
  obtain ⟨rfl | rfl, -⟩ := mem_halves.1 hb
  · rw [ha.acceptsBytes_inter hl, Bool.and_eq_true] at hw
    exact hw.1
  · rw [ha.acceptsBytes_minus hl, Bool.and_eq_true] at hw
    exact hw.1

/-- A half lies inside the language or outside. -/
theorem respects_halves : Respects (halves language a) language := by
  intro b hb
  obtain ⟨rfl | rfl, -⟩ := mem_halves.1 hb
  · refine .inl fun w hw => ?_
    rw [ha.acceptsBytes_inter hl, Bool.and_eq_true] at hw
    exact hw.2
  · refine .inr fun w hw => ?_
    rw [ha.acceptsBytes_minus hl, Bool.and_eq_true, Bool.not_eq_true'] at hw
    exact hw.2

/-- Every member of a part is in one of the halves. -/
theorem exists_mem_halves {w : List UInt8} (hw : a.acceptsBytes w = true) :
    ∃ b ∈ halves language a, b.acceptsBytes w = true := by
  have hin := ha.acceptsBytes_inter hl w
  have hout := ha.acceptsBytes_minus hl w
  cases hlw : language.acceptsBytes w with
  | true =>
    rw [hw, hlw] at hin
    exact ⟨_, mem_halves.2 ⟨.inl rfl, (isEmpty_eq_false_iff (ha.inter hl)).2 ⟨w, hin⟩⟩, hin⟩
  | false =>
    rw [hw, hlw] at hout
    exact ⟨_, mem_halves.2 ⟨.inr rfl, (isEmpty_eq_false_iff (ha.minus hl)).2 ⟨w, hout⟩⟩, hout⟩

theorem disjoint_halves : (halves language a).Pairwise fun a b =>
    ∀ w, a.acceptsBytes w = true → b.acceptsBytes w = false := by
  refine List.Pairwise.filter _ (List.pairwise_cons.2 ⟨fun b hb w hw => ?_,
    List.pairwise_singleton _ _⟩)
  obtain rfl := List.mem_singleton.1 hb
  rw [ha.acceptsBytes_inter hl, Bool.and_eq_true] at hw
  rw [ha.acceptsBytes_minus hl, hw.2, Bool.not_true, Bool.and_false]

end

theorem Respects.refined (hvalid : ∀ a ∈ parts, a.Valid) (hl : language.Valid)
    (h : Respects parts other) : Respects (refine parts language) other := by
  intro b hb
  obtain ⟨a, ha, hb⟩ := mem_refine.1 hb
  have hab := subset_of_mem_halves (hvalid a ha) hl hb
  exact (h a ha).imp (fun hin w hw => hin w (hab w hw)) fun hout w hw => hout w (hab w hw)

theorem respects_refine (hvalid : ∀ a ∈ parts, a.Valid) (hl : language.Valid) :
    Respects (refine parts language) language := by
  intro b hb
  obtain ⟨a, ha, hb⟩ := mem_refine.1 hb
  exact respects_halves (hvalid a ha) hl b hb

/-- **Refining** a partition by a language gives a partition. -/
theorem IsPartition.refined (h : IsPartition parts whole) (hl : language.Valid) :
    IsPartition (refine parts language) whole := by
  refine ⟨fun b hb => ?_, fun b hb => ?_, fun w => ?_, ?_⟩
  · obtain ⟨a, ha, hb⟩ := mem_refine.1 hb
    exact valid_of_mem_halves (h.valid a ha) hl hb
  · obtain ⟨a, ha, hb⟩ := mem_refine.1 hb
    exact (isEmpty_eq_false_iff (valid_of_mem_halves (h.valid a ha) hl hb)).1 (mem_halves.1 hb).2
  · rw [h.covers]
    constructor
    · rintro ⟨a, ha, hw⟩
      obtain ⟨b, hb, hbw⟩ := exists_mem_halves (h.valid a ha) hl hw
      exact ⟨b, mem_refine.2 ⟨a, ha, hb⟩, hbw⟩
    · rintro ⟨b, hb, hw⟩
      obtain ⟨a, ha, hb⟩ := mem_refine.1 hb
      exact ⟨a, ha, subset_of_mem_halves (h.valid a ha) hl hb w hw⟩
  · rw [refine_eq, List.pairwise_flatMap]
    refine ⟨fun a ha => disjoint_halves (h.valid a ha) hl, ?_⟩
    refine h.disjoint.imp_of_mem fun {a b} ha hb hab x hx y hy w hw => ?_
    have hb' := hab w (subset_of_mem_halves (h.valid a ha) hl hx w hw)
    refine Bool.eq_false_iff.2 fun hy' => ?_
    rw [subset_of_mem_halves (h.valid b hb) hl hy w hy'] at hb'
    exact nomatch hb'

/-- Refining by one language after the other keeps a partition, which then respects them all. -/
theorem isPartition_foldl {languages : List Automaton} (h : IsPartition parts whole)
    (hl : ∀ l ∈ languages, l.Valid) :
    IsPartition (languages.foldl refine parts) whole ∧
      (∀ l, Respects parts l → Respects (languages.foldl refine parts) l) ∧
      ∀ l ∈ languages, Respects (languages.foldl refine parts) l := by
  induction languages generalizing parts with
  | nil => exact ⟨h, fun _ hr => hr, fun l hl => absurd hl List.not_mem_nil⟩
  | cons l ls ih =>
    obtain ⟨hl, hls⟩ := List.forall_mem_cons.1 hl
    obtain ⟨hpart, hkeep, hall⟩ := ih (h.refined hl) hls
    refine ⟨hpart, fun k hk => hkeep k (hk.refined h.valid hl), fun k hk => ?_⟩
    rcases List.mem_cons.1 hk with rfl | hk
    · exact hkeep k (respects_refine h.valid hl)
    · exact hall k hk

/-! ### Named languages -/

theorem lookup_filter_ne {name other : String} (h : name ≠ other)
    (ls : List (String × Automaton)) :
    (ls.filter fun l => l.1 != other).lookup name = ls.lookup name := by
  induction ls with
  | nil => rfl
  | cons l ls ih =>
    rw [List.filter_cons, List.lookup_cons]
    split
    · rw [List.lookup_cons, ih]
    · rename_i hl
      rw [bne_iff_ne, not_not] at hl
      have hne : (name == l.1) = false := beq_eq_false_iff_ne.2 (hl ▸ h)
      rw [ih, hne]

/-- **Of languages with the same name** the first counts. -/
theorem lookup_firstOfName (name : String) (ls : List (String × Automaton)) :
    (firstOfName ls).lookup name = ls.lookup name := by
  induction ls with
  | nil => rfl
  | cons l ls ih =>
    rw [firstOfName, List.lookup_cons, List.lookup_cons]
    split
    · rfl
    · rename_i hne
      rw [lookup_filter_ne (beq_eq_false_iff_ne.1 hne), ih]

/-- What is kept is what a look-up finds. -/
theorem mem_firstOfName {name : String} {ls : List (String × Automaton)} :
    (name, language) ∈ firstOfName ls ↔ ls.lookup name = some language := by
  induction ls with
  | nil => simp [firstOfName]
  | cons k ls ih =>
    rw [firstOfName, List.mem_cons, List.mem_filter, ih, List.lookup_cons, bne_iff_ne]
    by_cases h : name = k.1
    · simp [h, eq_comm, Prod.ext_iff]
    · simp [h, beq_eq_false_iff_ne.2 h, Prod.ext_iff]

theorem mem_of_mem_firstOfName {l : String × Automaton} {ls : List (String × Automaton)}
    (h : l ∈ firstOfName ls) : l ∈ ls := by
  obtain ⟨l₁, l₂, heq, -⟩ := List.lookup_eq_some_iff.1 (mem_firstOfName.1 h)
  rw [heq]
  exact List.mem_append_right _ List.mem_cons_self

theorem mem_partsOf {i : Nat} : i ∈ partsOf parts language ↔
    ∃ a, parts[i]? = some a ∧ a.subsetOf language = true := by
  rw [partsOf, List.mem_map]
  constructor
  · rintro ⟨⟨a, j⟩, ha, rfl⟩
    obtain ⟨hmem, hsub⟩ := List.mem_filter.1 ha
    exact ⟨a, List.mem_zipIdx_iff_getElem?.1 hmem, hsub⟩
  · rintro ⟨a, ha, hsub⟩
    exact ⟨(a, i), List.mem_filter.2 ⟨List.mem_zipIdx_iff_getElem?.2 ha, hsub⟩, rfl⟩

theorem nodup_partsOf (parts : List Automaton) (language : Automaton) :
    (partsOf parts language).Nodup := by
  have hsub : (partsOf parts language).Sublist (parts.zipIdx.map (·.2)) :=
    List.filter_sublist.map _
  rw [List.zipIdx_map_snd] at hsub
  exact hsub.nodup List.nodup_range'

/-- What the whole has of a language that the parts respect consists of the parts inside it. -/
theorem acceptsBytes_and_iff_mem_partsOf (h : IsPartition parts whole) (hl : language.Valid)
    (hr : Respects parts language) (w : List UInt8) :
    (language.acceptsBytes w = true ∧ whole.acceptsBytes w = true) ↔
      ∃ i ∈ partsOf parts language, ∃ a, parts[i]? = some a ∧ a.acceptsBytes w = true := by
  constructor
  · rintro ⟨hw, hww⟩
    obtain ⟨a, ha, haw⟩ := (h.covers w).1 hww
    obtain ⟨i, hi⟩ := List.mem_iff_getElem?.1 ha
    refine ⟨i, mem_partsOf.2 ⟨a, hi, ?_⟩, a, hi, haw⟩
    rcases hr a ha with hin | hout
    · exact ((h.valid a ha).subsetOf_iff hl).2 hin
    · rw [hout w haw] at hw
      exact nomatch hw
  · rintro ⟨i, hi, a, ha, haw⟩
    obtain ⟨b, hb, hbl⟩ := mem_partsOf.1 hi
    obtain rfl := Option.some.inj (ha.symm.trans hb)
    have hmem := List.mem_of_getElem? ha
    exact ⟨((h.valid a hmem).subsetOf_iff hl).1 hbl w haw, (h.covers w).2 ⟨a, hmem, haw⟩⟩

/-- A language inside the whole that the parts respect consists of the parts inside it. -/
theorem acceptsBytes_iff_mem_partsOf (h : IsPartition parts whole) (hl : language.Valid)
    (hr : Respects parts language)
    (hsub : ∀ w, language.acceptsBytes w = true → whole.acceptsBytes w = true) (w : List UInt8) :
    language.acceptsBytes w = true ↔
      ∃ i ∈ partsOf parts language, ∃ a, parts[i]? = some a ∧ a.acceptsBytes w = true := by
  rw [← acceptsBytes_and_iff_mem_partsOf h hl hr w]
  exact ⟨fun hw => ⟨hw, hsub w hw⟩, And.left⟩

/-- Two parts with a common member are the same one. -/
theorem IsPartition.eq_of_accepts (h : IsPartition parts whole) {i j : Nat} {a b : Automaton}
    {w : List UInt8} (hi : parts[i]? = some a) (hj : parts[j]? = some b)
    (ha : a.acceptsBytes w = true) (hb : b.acceptsBytes w = true) : i = j := by
  have key : ∀ {i j : Nat} {a b : Automaton}, parts[i]? = some a → parts[j]? = some b →
      a.acceptsBytes w = true → b.acceptsBytes w = true → ¬i < j := by
    intro i j a b hi hj ha hb hlt
    obtain ⟨hi', rfl⟩ := List.getElem?_eq_some_iff.1 hi
    obtain ⟨hj', rfl⟩ := List.getElem?_eq_some_iff.1 hj
    rw [List.pairwise_iff_getElem.1 h.disjoint i j hi' hj' hlt w ha] at hb
    exact nomatch hb
  exact Nat.le_antisymm (Nat.le_of_not_lt (key hj hi hb ha)) (Nat.le_of_not_lt (key hi hj ha hb))

/-- Every member of the whole is in exactly one part. -/
theorem IsPartition.count_eq_one (h : IsPartition parts whole) {w : List UInt8}
    (hw : whole.acceptsBytes w = true) : (parts.map fun a => a.acceptsBytes w).count true = 1 := by
  rw [count_map_true]
  have hle : parts.countP (fun a => a.acceptsBytes w) ≤ 1 :=
    countP_le_one (h.disjoint.imp fun hab ha => hab w ha)
  obtain ⟨a, ha, haw⟩ := (h.covers w).1 hw
  have hpos : 0 < parts.countP fun a => a.acceptsBytes w := List.countP_pos_iff.2 ⟨a, ha, haw⟩
  omega

section
variable {languages : List (String × Automaton)} (hw : whole.Valid)
  (hl : ∀ l ∈ languages, l.2.Valid)

include hw in
/-- What the refinement starts from. -/
theorem isPartition_start : IsPartition (if whole.isEmpty then [] else [whole]) whole := by
  cases hempty : whole.isEmpty with
  | true =>
    refine ⟨nofun, nofun, fun w => ?_, .nil⟩
    rw [(hw.isEmpty_iff).1 hempty w]
    simp
  | false =>
    refine ⟨fun a ha => ?_, fun a ha => ?_, fun w => ?_, List.pairwise_singleton _ _⟩
    · exact List.mem_singleton.1 ha ▸ hw
    · exact List.mem_singleton.1 ha ▸ (isEmpty_eq_false_iff hw).1 hempty
    · simp

include hl in
theorem valid_firstOfName : ∀ l ∈ (firstOfName languages).map (·.2), l.Valid := by
  intro l hmem
  obtain ⟨k, hk, rfl⟩ := List.mem_map.1 hmem
  exact hl k (mem_of_mem_firstOfName hk)

include hw hl

theorem isPartition_and_respects : IsPartition (ofLanguages whole languages).parts whole ∧
    ∀ l ∈ firstOfName languages, Respects (ofLanguages whole languages).parts l.2 := by
  obtain ⟨hpart, -, hall⟩ := isPartition_foldl (isPartition_start hw) (valid_firstOfName hl)
  exact ⟨hpart, fun l hmem => hall l.2 (List.mem_map_of_mem hmem)⟩

/-- **The atomic predicates** are a partition of the whole. -/
theorem isPartition_ofLanguages : IsPartition (ofLanguages whole languages).parts whole :=
  (isPartition_and_respects hw hl).1

omit hw hl in
theorem find?_ofLanguages (name : String) : (ofLanguages whole languages).find? name =
    (languages.lookup name).map (partsOf (ofLanguages whole languages).parts) := by
  have key : ∀ ls : List (String × Automaton),
      (ls.map fun l => (l.1, partsOf (ofLanguages whole languages).parts l.2)).lookup name =
        (ls.lookup name).map (partsOf (ofLanguages whole languages).parts) := by
    intro ls
    induction ls with
    | nil => rfl
    | cons l ls ih =>
      rw [List.map_cons, List.lookup_cons, List.lookup_cons, ih]
      split <;> rfl
  rw [← lookup_firstOfName]
  exact key _

omit hw hl in
/-- Every name that has been given is listed. -/
theorem exists_find?_of_mem {l : String × Automaton} (h : l ∈ languages) :
    ∃ ns, (ofLanguages whole languages).find? l.1 = some ns := by
  have hsome : (languages.lookup l.1).isSome := by
    rw [List.lookup_isSome_iff]
    exact ⟨l, h, beq_self_eq_true _⟩
  obtain ⟨a, ha⟩ := Option.isSome_iff_exists.1 hsome
  rw [find?_ofLanguages, ha]
  exact ⟨_, rfl⟩

omit hw hl in
theorem nodup_find? {name : String} {ns : List Nat}
    (h : (ofLanguages whole languages).find? name = some ns) : ns.Nodup := by
  rw [find?_ofLanguages] at h
  obtain ⟨language, -, rfl⟩ := Option.map_eq_some_iff.1 h
  exact nodup_partsOf _ language

/-- **A named language** consists of the parts that are listed for it. -/
theorem exists_find? {name : String} {language : Automaton}
    (hname : languages.lookup name = some language)
    (hsub : ∀ w, language.acceptsBytes w = true → whole.acceptsBytes w = true) :
    ∃ ns, (ofLanguages whole languages).find? name = some ns ∧ ∀ w,
      language.acceptsBytes w = true ↔
        ∃ i ∈ ns, ∃ a, (ofLanguages whole languages).parts[i]? = some a ∧
          a.acceptsBytes w = true := by
  obtain ⟨hpart, hresp⟩ := isPartition_and_respects hw hl
  have hmem := mem_firstOfName.2 hname
  refine ⟨_, by rw [find?_ofLanguages, hname, Option.map_some], ?_⟩
  exact acceptsBytes_iff_mem_partsOf hpart (hl _ (mem_of_mem_firstOfName hmem))
    (hresp _ hmem) hsub

end
end Partition
end RouteSolver
