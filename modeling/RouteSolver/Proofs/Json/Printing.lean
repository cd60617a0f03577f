/-
# Printing and reading back

Both printers put spellings together, so what they write is read back (`read?_compact`,
`read?_pretty`), as long as the value is one that a text can stand for (`isWritable`). Such a value
denotes something in every part (`isReadable_of_isWritable`).
-/

import RouteSolver.Proofs.Json.Spelling

namespace RouteSolver
namespace Json

/-! ### Values that texts can stand for -/

open Reader

mutual
/-- Whether a text can stand for a value: its numbers are integers in the range of double precision,
and every part denotes something. -/
def isWritable : Json → Bool
  | list items => areWritable items
  | record fields => areWritableFields fields
  | natural n => inRange n 0 0
  | negative n => inRange n 0 0 && decide (0 < n)
  | null | bool _ | text _ => true
  | otherNumber | unreadable => false

/-- Whether a text can stand for all items of a list. -/
def areWritable : List Json → Bool
  | [] => true
  | j :: js => j.isWritable && areWritable js

/-- Whether a text can stand for all fields. -/
def areWritableFields : List (String × Json) → Bool
  | [] => true
  | (_, j) :: fs => j.isWritable && areWritableFields fs
end

mutual
theorem isReadable_of_isWritable : ∀ j : Json, j.isWritable = true → j.isReadable = true
  | null, _ | bool _, _ | natural _, _ | negative _, _ | text _, _ => rfl
  | otherNumber, h | unreadable, h => Bool.noConfusion h
  | list items, h => areReadable_of_areWritable items h
  | record fields, h => areReadableFields_of_areWritableFields fields h

theorem areReadable_of_areWritable : ∀ js : List Json, areWritable js = true →
    areReadable js = true
  | [], _ => rfl
  | j :: js, h => by
    rw [areWritable, Bool.and_eq_true] at h
    rw [areReadable, isReadable_of_isWritable j h.1, areReadable_of_areWritable js h.2]
    rfl

theorem areReadableFields_of_areWritableFields : ∀ fs : List (String × Json),
    areWritableFields fs = true → areReadableFields fs = true
  | [], _ => rfl
  | (_, j) :: fs, h => by
    rw [areWritableFields, Bool.and_eq_true] at h
    rw [areReadableFields, isReadable_of_isWritable j h.1,
      areReadableFields_of_areWritableFields fs h.2]
    rfl
end

/-! ### Spellings of the printers -/

mutual
/-- **What is written without white space** spells the value. -/
theorem spells_compactChars : ∀ j : Json, j.isWritable = true → Spells j.compactChars j
  | null, _ => spells_null
  | bool b, _ => spells_bool b
  | natural n, h => spells_natural h
  | negative n, h => by
    rw [isWritable, Bool.and_eq_true, decide_eq_true_iff] at h
    exact spells_negative h.1 h.2
  | otherNumber, h => Bool.noConfusion h
  | text s, _ => spells_text s
  | unreadable, h => Bool.noConfusion h
  | list [], _ => spells_list_nil
  | list (j :: js), h => (spellsItems_compactItems (j :: js) (List.cons_ne_nil j js) h).spells
  | record [], _ => spells_record_nil
  | record (f :: fs), h =>
    (spellsFields_compactFields (f :: fs) (List.cons_ne_nil f fs) h).spells

theorem spellsItems_compactItems : ∀ js : List Json, js ≠ [] → areWritable js = true →
    SpellsItems (compactItems js ++ [']']) js
  | [], hne, _ => absurd rfl hne
  | [j], _, h => by
    rw [areWritable, Bool.and_eq_true] at h
    exact (spells_compactChars j h.1).lastItem blank_nil
  | j :: k :: js, _, h => by
    rw [areWritable, Bool.and_eq_true] at h
    rw [compactItems, List.append_assoc, List.cons_append]
    exact (spells_compactChars j h.1).item
      (spellsItems_compactItems (k :: js) (List.cons_ne_nil k js) h.2)
    exact nofun

theorem spellsFields_compactFields : ∀ fs : List (String × Json), fs ≠ [] →
    areWritableFields fs = true → SpellsFields (compactFields fs ++ ['\x7d']) fs
  | [], hne, _ => absurd rfl hne
  | [(name, j)], _, h => by
    rw [areWritableFields, Bool.and_eq_true] at h
    rw [compactFields, List.append_assoc, List.cons_append]
    exact (spells_compactChars j h.1).lastField name blank_nil
  | (name, j) :: f :: fs, _, h => by
    rw [areWritableFields, Bool.and_eq_true] at h
    rw [compactFields, List.append_assoc, List.cons_append, List.append_assoc, List.cons_append]
    exact (spells_compactChars j h.1).field name
      (spellsFields_compactFields (f :: fs) (List.cons_ne_nil f fs) h.2)
    exact nofun
end

theorem blank_newline (level : Nat) : Blank (newline level) := by
  intro c hc
  rcases List.mem_cons.1 hc with rfl | hc
  · decide
  · rw [List.eq_of_mem_replicate hc]
    decide

mutual
/-- **What is written over several lines** spells the value. -/
theorem spells_prettyChars : ∀ (level : Nat) (j : Json), j.isWritable = true →
    Spells (j.prettyChars level) j
  | _, null, _ => spells_null
  | _, bool b, _ => spells_bool b
  | _, natural n, h => spells_natural h
  | _, negative n, h => by
    rw [isWritable, Bool.and_eq_true, decide_eq_true_iff] at h
    exact spells_negative h.1 h.2
  | _, otherNumber, h => Bool.noConfusion h
  | _, text s, _ => spells_text s
  | _, unreadable, h => Bool.noConfusion h
  | _, list [], _ => spells_list_nil
  | level, list (j :: js), h =>
    (spellsItems_prettyItems level (j :: js) (List.cons_ne_nil j js) h).spells
  | _, record [], _ => spells_record_nil
  | level, record (f :: fs), h =>
    (spellsFields_prettyFields level (f :: fs) (List.cons_ne_nil f fs) h).spells

theorem spellsItems_prettyItems : ∀ (level : Nat) (js : List Json), js ≠ [] →
    areWritable js = true →
    SpellsItems (prettyItems (level + 1) js ++ (newline level ++ [']'])) js
  | _, [], hne, _ => absurd rfl hne
  | level, [j], _, h => by
    rw [areWritable, Bool.and_eq_true] at h
    exact ((spells_prettyChars (level + 1) j h.1).space (blank_newline _)).lastItem
      (blank_newline level)
  | level, j :: k :: js, _, h => by
    rw [areWritable, Bool.and_eq_true] at h
    have hj := (spells_prettyChars (level + 1) j h.1).space (blank_newline (level + 1))
    have hitems := hj.item
      (spellsItems_prettyItems level (k :: js) (List.cons_ne_nil k js) h.2)
    rwa [prettyItems, List.append_assoc, List.append_assoc, List.cons_append, ← List.append_assoc]
    exact nofun

theorem spellsFields_prettyFields : ∀ (level : Nat) (fs : List (String × Json)), fs ≠ [] →
    areWritableFields fs = true →
    SpellsFields (prettyFields (level + 1) fs ++ (newline level ++ ['\x7d'])) fs
  | _, [], hne, _ => absurd rfl hne
  | level, [(name, j)], _, h => by
    rw [areWritableFields, Bool.and_eq_true] at h
    have hj := (spells_prettyChars (level + 1) j h.1).space blank_space
    have hfield := (hj.lastField name (blank_newline level)).space (blank_newline (level + 1))
    rw [prettyFields]
    simpa only [List.append_assoc, List.cons_append, List.nil_append] using hfield
  | level, (name, j) :: f :: fs, _, h => by
    rw [areWritableFields, Bool.and_eq_true] at h
    have hj := (spells_prettyChars (level + 1) j h.1).space blank_space
    have hfield := (hj.field name
      (spellsFields_prettyFields level (f :: fs) (List.cons_ne_nil f fs) h.2)).space
        (blank_newline (level + 1))
    rw [prettyFields]
    · simpa only [List.append_assoc, List.cons_append, List.nil_append] using hfield
    · exact nofun
end

/-! ### Reading a whole text -/

theorem read?_of_spells {cs : List Char} {j : Json} (h : Spells cs j) :
    read? (String.ofList cs) = some j := by
  have hread := h (2 * cs.length + 2) [] (by omega) ends_nil
  rw [List.append_nil] at hread
  rw [read?, String.toList_ofList]
  simp only [hread, Option.bind_eq_bind, Option.bind_some]
  rfl

/-- **A value is read back** from its text without white space. -/
theorem read?_compact {j : Json} (h : j.isWritable = true) : read? j.compact = some j :=
  read?_of_spells (spells_compactChars j h)

/-- **A value is read back** from its text over several lines. -/
theorem read?_pretty {j : Json} (h : j.isWritable = true) : read? j.pretty = some j :=
  read?_of_spells (spells_prettyChars 0 j h)

end Json
end RouteSolver
