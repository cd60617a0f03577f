/-
# The coarsest partition

What the atomic predicates are is said in terms of languages alone (`Partition.IsCoarsest`): a
partition of the whole of which every named language is a union of parts, and in which two byte
strings are together exactly when they belong to the same named languages. Only one set of parts is
like that (`IsCoarsest.pieces_eq`), so neither the order in which the languages are given nor their
repetition matters.

That the refinement makes no more parts than necessary comes down to one step: byte strings on which
the languages agree are never taken apart (`Together.refined`).
-/

import RouteSolver.Proofs.Automaton.Constructed
import RouteSolver.Proofs.Domain.Partition
import Mathlib.Data.Set.Basic

namespace RouteSolver
namespace Automaton

/-- The language of an automaton. -/
def members (a : Automaton) : Set (List UInt8) := {w | a.acceptsBytes w = true}

end Automaton

namespace Partition

open Automaton

variable {whole : Automaton} {languages others : List (String × Automaton)} {p q : Partition}
  {v w : List UInt8}

/-! ### Coarsest partitions -/

/-- The languages that are registered under some name. -/
def registered (languages : List (String × Automaton)) : Set (Set (List UInt8)) :=
  {s | ∃ name a, languages.lookup name = some a ∧ a.members = s}

theorem registered_eq (languages : List (String × Automaton)) :
    registered languages = {s | ∃ l ∈ firstOfName languages, l.2.members = s} := by
  refine Set.ext fun s => ⟨?_, ?_⟩
  · rintro ⟨name, a, ha, hs⟩
    exact ⟨(name, a), mem_firstOfName.2 ha, hs⟩
  · rintro ⟨⟨name, a⟩, ha, hs⟩
    exact ⟨name, a, mem_firstOfName.1 ha, hs⟩

theorem registered_singleton (name : String) (a : Automaton) :
    registered [(name, a)] = {a.members} := by
  refine Set.ext fun s => ⟨?_, ?_⟩
  · rintro ⟨n, b, hb, rfl⟩
    obtain ⟨l₁, l₂, heq, -⟩ := List.lookup_eq_some_iff.1 hb
    have hmem : (n, b) ∈ [(name, a)] := heq ▸ List.mem_append_right _ List.mem_cons_self
    rw [(Prod.mk.inj (List.mem_singleton.1 hmem)).2]
    rfl
  · rintro rfl
    exact ⟨name, a, List.lookup_cons_self, rfl⟩

/-- The languages of the parts. -/
def pieces (p : Partition) : Set (Set (List UInt8)) := {s | ∃ a ∈ p.parts, a.members = s}

/-- A partition of the whole that has every named language as a union of parts, and that takes two
members of the whole apart only when they differ in the named languages. -/
structure IsCoarsest (p : Partition) (whole : Automaton) (languages : List (String × Automaton)) :
    Prop extends IsPartition p.parts whole where
  exists_find? : ∀ name language, languages.lookup name = some language →
    ∃ ns, p.find? name = some ns ∧ (∀ i ∈ ns, i < p.size) ∧ ∀ w,
      (language.acceptsBytes w = true ∧ whole.acceptsBytes w = true) ↔
        ∃ i ∈ ns, ∃ a, p.parts[i]? = some a ∧ a.acceptsBytes w = true
  same_part_iff : ∀ v w, whole.acceptsBytes v = true → whole.acceptsBytes w = true →
    ((∃ a ∈ p.parts, a.acceptsBytes v = true ∧ a.acceptsBytes w = true) ↔
      ∀ s ∈ registered languages, v ∈ s ↔ w ∈ s)

/-- The part that a byte string is in has the members of the whole that belong to the same named
languages. -/
theorem IsCoarsest.acceptsBytes_iff (h : p.IsCoarsest whole languages) {a : Automaton}
    (ha : a ∈ p.parts) (hv : a.acceptsBytes v = true) : a.acceptsBytes w = true ↔
      whole.acceptsBytes w = true ∧ ∀ s ∈ registered languages, v ∈ s ↔ w ∈ s := by
  have hwv : whole.acceptsBytes v = true := (h.covers v).2 ⟨a, ha, hv⟩
  constructor
  · intro hw
    have hww : whole.acceptsBytes w = true := (h.covers w).2 ⟨a, ha, hw⟩
    exact ⟨hww, (h.same_part_iff v w hwv hww).1 ⟨a, ha, hv, hw⟩⟩
  · rintro ⟨hww, hagree⟩
    obtain ⟨b, hb, hbv, hbw⟩ := (h.same_part_iff v w hwv hww).2 hagree
    obtain ⟨i, hi⟩ := List.mem_iff_getElem?.1 ha
    obtain ⟨j, hj⟩ := List.mem_iff_getElem?.1 hb
    obtain rfl := h.eq_of_accepts hi hj hv hbv
    obtain rfl := Option.some.inj (hi.symm.trans hj)
    exact hbw

theorem IsCoarsest.pieces_subset (h : p.IsCoarsest whole languages)
    (k : q.IsCoarsest whole others) (hsame : registered languages = registered others) :
    p.pieces ⊆ q.pieces := by
  rintro _ ⟨a, ha, rfl⟩
  obtain ⟨v, hv⟩ := h.nonempty a ha
  obtain ⟨b, hb, hbv⟩ := (k.covers v).1 ((h.covers v).2 ⟨a, ha, hv⟩)
  refine ⟨b, hb, Set.ext fun w => ?_⟩
  exact (k.acceptsBytes_iff hb hbv).trans (hsame ▸ (h.acceptsBytes_iff ha hv).symm)

/-- **There is one coarsest partition** for the same named languages. -/
theorem IsCoarsest.pieces_eq (h : p.IsCoarsest whole languages) (k : q.IsCoarsest whole others)
    (hsame : registered languages = registered others) : p.pieces = q.pieces :=
  Set.Subset.antisymm (h.pieces_subset k hsame) (k.pieces_subset h hsame.symm)

/-! ### The refinement is coarse -/

/-- No part takes the two byte strings apart. -/
def Together (v w : List UInt8) (parts : List Automaton) : Prop :=
  ∀ a ∈ parts, a.acceptsBytes v = a.acceptsBytes w

/-- **Splitting** by a language does not take apart what the language does not. -/
theorem Together.refined {parts : List Automaton} {language : Automaton}
    (h : Together v w parts) (hvalid : ∀ a ∈ parts, a.Valid) (hl : language.Valid)
    (hvw : language.acceptsBytes v = language.acceptsBytes w) :
    Together v w (refine parts language) := by
  intro b hb
  obtain ⟨a, ha, hb⟩ := mem_refine.1 hb
  obtain ⟨rfl | rfl, -⟩ := mem_halves.1 hb
  · rw [(hvalid a ha).acceptsBytes_inter hl, (hvalid a ha).acceptsBytes_inter hl, h a ha, hvw]
  · rw [(hvalid a ha).acceptsBytes_minus hl, (hvalid a ha).acceptsBytes_minus hl, h a ha, hvw]

theorem Together.foldl {parts : List Automaton} {ls : List Automaton}
    (h : Together v w parts) (hpart : IsPartition parts whole) (hl : ∀ l ∈ ls, l.Valid)
    (hvw : ∀ l ∈ ls, l.acceptsBytes v = l.acceptsBytes w) :
    Together v w (ls.foldl refine parts) := by
  induction ls generalizing parts with
  | nil => exact h
  | cons l ls ih =>
    obtain ⟨hl, hls⟩ := List.forall_mem_cons.1 hl
    obtain ⟨hlvw, hlsvw⟩ := List.forall_mem_cons.1 hvw
    exact ih (h.refined hpart.valid hl hlvw) (hpart.refined hl) hls hlsvw

section
variable (hw : whole.Valid) (hl : ∀ l ∈ languages, l.2.Valid)
include hw hl

/-- Members of the whole that belong to the same named languages stay together. -/
theorem together_ofLanguages (hwv : whole.acceptsBytes v = true)
    (hww : whole.acceptsBytes w = true) (hvw : ∀ s ∈ registered languages, v ∈ s ↔ w ∈ s) :
    Together v w (ofLanguages whole languages).parts := by
  have hstart : Together v w (if whole.isEmpty then [] else [whole]) := by
    intro a ha
    split at ha
    · exact absurd ha List.not_mem_nil
    · rw [List.mem_singleton.1 ha, hwv, hww]
  refine hstart.foldl (isPartition_start hw) (valid_firstOfName hl) fun l hmem => ?_
  obtain ⟨⟨name, l⟩, hk, rfl⟩ := List.mem_map.1 hmem
  exact Bool.eq_iff_iff.2 (hvw _ ⟨name, l, mem_firstOfName.1 hk, rfl⟩)

theorem isCoarsest_of_valid : (ofLanguages whole languages).IsCoarsest whole languages := by
  obtain ⟨hpart, hresp⟩ := isPartition_and_respects hw hl
  refine { hpart with exists_find? := fun name language hname => ?_,
                      same_part_iff := fun v w hwv hww => ⟨?_, fun hvw => ?_⟩ }
  · have hmem := mem_firstOfName.2 hname
    refine ⟨_, by rw [find?_ofLanguages, hname, Option.map_some], fun i hi => ?_,
      acceptsBytes_and_iff_mem_partsOf hpart (hl _ (mem_of_mem_firstOfName hmem)) (hresp _ hmem)⟩
    obtain ⟨a, ha, -⟩ := mem_partsOf.1 hi
    exact (List.getElem?_eq_some_iff.1 ha).1
  · rintro ⟨a, ha, hv, hw'⟩ _ ⟨name, language, hname, rfl⟩
    -- the part that both are in lies on one side of the language
    rcases hresp _ (mem_firstOfName.2 hname) a ha with hin | hout
    · exact iff_of_true (hin v hv) (hin w hw')
    · exact Bool.eq_iff_iff.1 ((hout v hv).trans (hout w hw').symm)
  · obtain ⟨a, ha, hv⟩ := (hpart.covers v).1 hwv
    exact ⟨a, ha, hv, (together_ofLanguages hw hl hwv hww hvw a ha).symm.trans hv⟩

end

/-- **The atomic predicates are the coarsest partition** of the whole that has every named language
as a union of parts; and they are the same ones whenever the named languages are. -/
theorem isCoarsest_ofLanguages (hw : whole.Constructed) (hl : ∀ l ∈ languages, l.2.Constructed) :
    (ofLanguages whole languages).IsCoarsest whole languages ∧
      ∀ others, (∀ l ∈ others, l.2.Constructed) → registered others = registered languages →
        (ofLanguages whole others).pieces = (ofLanguages whole languages).pieces := by
  have hcoarsest := isCoarsest_of_valid hw.valid fun l h => (hl l h).valid
  exact ⟨hcoarsest, fun others hothers =>
    (isCoarsest_of_valid hw.valid fun l h => (hothers l h).valid).pieces_eq hcoarsest⟩

/-- Two texts, the name of one of which is given once more. -/
def someTexts : List (String × Automaton) :=
  [("one", .ofText "1"), ("two", .ofText "2"), ("one", .ofText "3")]

/-- The same languages in the other order and under other names. -/
def reorderedTexts : List (String × Automaton) := [("b", .ofText "2"), ("a", .ofText "1")]

theorem registered_reorderedTexts : registered reorderedTexts = registered someTexts := by
  ext s
  simp [registered_eq, firstOfName, reorderedTexts, someTexts, or_comm]

/-- Both lists split all byte strings into the same parts. -/
theorem isCoarsest_ofLanguages_someTexts :
    (ofLanguages .anything someTexts).IsCoarsest .anything someTexts ∧
      (ofLanguages .anything reorderedTexts).pieces = (ofLanguages .anything someTexts).pieces := by
  have hsome : ∀ l ∈ someTexts, l.2.Constructed := by
    simp [someTexts, Constructed.ofText]
  have hreordered : ∀ l ∈ reorderedTexts, l.2.Constructed := by
    simp [reorderedTexts, Constructed.ofText]
  obtain ⟨hcoarsest, hpieces⟩ := isCoarsest_ofLanguages .anything hsome
  exact ⟨hcoarsest, hpieces _ hreordered registered_reorderedTexts⟩

end Partition
end RouteSolver
