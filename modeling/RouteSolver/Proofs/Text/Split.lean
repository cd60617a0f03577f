/-
# Splitting what was joined

`toList_joinWith` spells a joined text out. Splitting it at the separator gives the parts back, if
no part holds the separator (`split_join`), and there is always some way to see a text as joined
from its parts.
-/

import RouteSolver.Text.Split

namespace RouteSolver
namespace Text

/-- The characters of joined parts. -/
theorem toList_joinWith (sep part : String) (parts : List String) :
    (joinWith sep (part :: parts)).toList =
      part.toList ++ parts.flatMap fun p => sep.toList ++ p.toList := by
  rw [joinWith]
  induction parts generalizing part with
  | nil => rw [String.intercalate_singleton, List.flatMap_nil, List.append_nil]
  | cons p ps ih =>
    rw [String.intercalate_cons_cons, String.toList_append, String.toList_append, ih,
      List.flatMap_cons, List.append_assoc, List.append_assoc]

theorem split_of_not_mem {sep : Char} {cs : List Char} (h : sep ∉ cs) : split sep cs = [cs] := by
  induction cs with
  | nil => rfl
  | cons c cs ih =>
    rw [List.mem_cons, not_or] at h
    rw [split, if_neg (Ne.symm h.1), ih h.2]

theorem split_append {sep : Char} {cs rest : List Char} (h : sep ∉ cs) :
    split sep (cs ++ sep :: rest) = cs :: split sep rest := by
  induction cs with
  | nil => rw [List.nil_append, split, if_pos rfl]
  | cons c cs ih =>
    rw [List.mem_cons, not_or] at h
    rw [List.cons_append, split, if_neg (Ne.symm h.1), ih h.2]

/-- **Splitting what was joined** gives the parts back. -/
theorem split_join {sep : Char} {part : List Char} {parts : List (List Char)} (h : sep ∉ part)
    (hs : ∀ p ∈ parts, sep ∉ p) :
    split sep (part ++ parts.flatMap (sep :: ·)) = part :: parts := by
  induction parts generalizing part with
  | nil => rw [List.flatMap_nil, List.append_nil, split_of_not_mem h]
  | cons p ps ih =>
    rw [List.flatMap_cons, List.cons_append, split_append h,
      ih (hs p List.mem_cons_self) fun q hq => hs q (List.mem_cons_of_mem _ hq)]

/-- **Every text is joined** from parts that do not hold the separator. -/
theorem exists_join (sep : Char) (cs : List Char) :
    ∃ (part : List Char) (parts : List (List Char)),
      cs = part ++ parts.flatMap (sep :: ·) ∧ sep ∉ part ∧ ∀ p ∈ parts, sep ∉ p := by
  induction cs with
  | nil => exact ⟨[], [], rfl, List.not_mem_nil, List.forall_mem_nil _⟩
  | cons c cs ih =>
    obtain ⟨part, parts, rfl, hpart, hparts⟩ := ih
    by_cases hc : c = sep
    · refine ⟨[], part :: parts, ?_, List.not_mem_nil, List.forall_mem_cons.2 ⟨hpart, hparts⟩⟩
      rw [hc, List.nil_append, List.flatMap_cons, List.cons_append]
    · refine ⟨c :: part, parts, rfl, ?_, hparts⟩
      rw [List.mem_cons, not_or]
      exact ⟨Ne.symm hc, hpart⟩

theorem dropStart?_append (start rest : List Char) :
    dropStart? start (start ++ rest) = some rest := by
  rw [dropStart?, if_pos (List.isPrefixOf_iff_prefix.2 (List.prefix_append ..)),
    List.drop_left]

theorem dropEnd?_append (ending cs : List Char) : dropEnd? ending (cs ++ ending) = some cs := by
  rw [dropEnd?, List.reverse_append, dropStart?_append, Option.map_some, List.reverse_reverse]

theorem dropStart?_eq_some_iff {start cs rest : List Char} :
    dropStart? start cs = some rest ↔ cs = start ++ rest := by
  refine ⟨fun h => ?_, fun h => h ▸ dropStart?_append start rest⟩
  rw [dropStart?] at h
  split at h
  · rename_i hstart
    obtain ⟨more, rfl⟩ := List.isPrefixOf_iff_prefix.1 hstart
    rw [List.drop_left, Option.some.injEq] at h
    rw [h]
  · cases h

theorem dropEnd?_eq_some_iff {ending cs rest : List Char} :
    dropEnd? ending cs = some rest ↔ cs = rest ++ ending := by
  refine ⟨fun h => ?_, fun h => h ▸ dropEnd?_append ending rest⟩
  obtain ⟨back, hback, rfl⟩ := Option.map_eq_some_iff.1 h
  rw [← List.reverse_inj, List.reverse_append, List.reverse_reverse]
  exact dropStart?_eq_some_iff.1 hback

end Text
end RouteSolver
