/-
# Spellings

A text spells a value if the reader reads the value off the front of every longer text, unless what
follows would carry a number on (`Spells`). Strings are read back character by character
(`pieces_escapeChar`), numbers from their digits (`unsigned_digits`). The spelling of a list or of a
record is put together from those of its parts, with white space where it is admitted: one item or
field after the other, and the closing bracket or brace with the last (`Spells.item`,
`Spells.lastItem`, `Spells.field`, `Spells.lastField`).
-/

import RouteSolver.Json.Printer
import RouteSolver.Json.Reader
import RouteSolver.Proofs.Text.Decimal

namespace RouteSolver
namespace Json
namespace Reader

/-! ### White space -/

/-- Only white space. -/
def Blank (ws : List Char) : Prop := ∀ c ∈ ws, isSpace c = true

theorem blank_nil : Blank [] := nofun

theorem blank_space : Blank [' '] := List.forall_mem_singleton.2 rfl

theorem skipSpace_append {ws : List Char} (h : Blank ws) (cs : List Char) :
    skipSpace (ws ++ cs) = skipSpace cs := by
  rw [skipSpace, List.dropWhile_append_of_pos h]
  rfl

theorem skipSpace_cons {c : Char} (h : isSpace c = false) (cs : List Char) :
    skipSpace (c :: cs) = c :: cs := by
  rw [skipSpace, List.dropWhile_cons, h, if_neg Bool.false_ne_true]

/-! ### Strings -/

theorem hexDigit?_hexChar {n : Nat} (h : n < 16) : hexDigit? (hexChar n) = some n := by
  have key : ∀ m : Fin 16, hexDigit? (hexChar m.1) = some m.1 := by decide
  exact key ⟨n, h⟩

theorem hexPiece_control {c : Char} (h : c.toNat < 32) :
    hexPiece '0' '0' (hexChar (c.toNat / 16)) (hexChar (c.toNat % 16)) = some (.char c) := by
  have hzero : hexDigit? '0' = some 0 := by decide
  have hunit : ((0 * 16 + 0) * 16 + c.toNat / 16) * 16 + c.toNat % 16 = c.toNat := by omega
  simp only [hexPiece, hzero, hexDigit?_hexChar (show c.toNat / 16 < 16 by omega),
    hexDigit?_hexChar (Nat.mod_lt c.toNat (by decide : 0 < 16)), Option.bind_eq_bind,
    Option.bind_some, hunit]
  rw [if_neg (by omega), Char.ofNat_toNat]
  rfl

/-- A character that needs no escape. -/
theorem pieces_plain {c : Char} (hquote : c ≠ '"') (hslash : c ≠ '\\') (hlow : ¬c.toNat < 32)
    (cs : List Char) : pieces (c :: cs) = (pieces cs).map fun p => (.char c :: p.1, p.2) := by
  rw [pieces, if_neg hlow]
  · cases pieces cs <;> rfl
  · exact hquote
  · exact fun _ _ _ _ _ h => absurd h hslash
  · exact fun _ _ h => absurd h hslash

/-- An escape of one letter. -/
theorem pieces_shortEscape {e c : Char} (hu : e ≠ 'u') (he : shortEscape? e = some c)
    (cs : List Char) :
    pieces ('\\' :: e :: cs) = (pieces cs).map fun p => (.char c :: p.1, p.2) := by
  rw [pieces, he]
  · cases pieces cs <;> rfl
  · exact fun _ _ _ _ _ h => absurd h hu

/-- **An escaped character** is read as the character. -/
theorem pieces_escapeChar (c : Char) (cs : List Char) :
    pieces (escapeChar c ++ cs) = (pieces cs).map fun p => (.char c :: p.1, p.2) := by
  unfold escapeChar
  split
  case h_8 hquote hslash _ _ _ _ _ =>
    split
    · rename_i hlow
      simp only [List.cons_append, List.nil_append, pieces, hexPiece_control hlow]
      cases pieces cs <;> rfl
    · rename_i hlow
      exact pieces_plain hquote hslash hlow cs
  all_goals exact pieces_shortEscape (by decide) rfl cs

theorem pieces_quote (cs rest : List Char) :
    pieces (cs.flatMap escapeChar ++ '"' :: rest) = some (cs.map .char, rest) := by
  induction cs with
  | nil => rfl
  | cons c cs ih =>
    rw [List.flatMap_cons, List.append_assoc, pieces_escapeChar, ih]
    rfl

theorem join_map_char (cs : List Char) : join (cs.map .char) = some cs := by
  induction cs with
  | nil => rfl
  | cons c cs ih => rw [List.map_cons, join, ih, Option.map_some]

theorem textOf_map_char (s : String) : textOf (s.toList.map .char) = .text s := by
  rw [textOf, join_map_char]
  exact congrArg text String.ofList_toList

/-- Fields whose names have been read. -/
def namedPieces (fs : List (String × Json)) : List (List Piece × Json) :=
  fs.map fun f => (f.1.toList.map .char, f.2)

theorem recordOf_namedPieces (fs : List (String × Json)) :
    recordOf (namedPieces fs) = .record fs := by
  have hnames : (namedPieces fs).mapM (fun f =>
      (join f.1).map fun name => (String.ofList name, f.2)) = some fs := by
    induction fs with
    | nil => rfl
    | cons f fs ih =>
      rw [namedPieces] at ih
      rw [namedPieces, List.map_cons, List.mapM_cons, join_map_char, Option.map_some,
        String.ofList_toList, ih]
      rfl
  rw [recordOf, hnames]

/-! ### Numbers -/

/-- What may follow a value: nothing that would carry a number on. -/
def Ends (rest : List Char) : Prop :=
  ∀ c ∈ rest.head?, c.isDigit = false ∧ c ≠ '.' ∧ c ≠ 'e' ∧ c ≠ 'E'

theorem ends_nil : Ends [] := nofun

theorem Ends.cons {c : Char} {rest : List Char}
    (h : c.isDigit = false ∧ c ≠ '.' ∧ c ≠ 'e' ∧ c ≠ 'E') : Ends (c :: rest) := fun d hd => by
  obtain rfl : c = d := Option.some.inj hd
  exact h

/-- White space ends a value, and before an end it is one. -/
theorem Ends.space {ws rest : List Char} (hws : Blank ws) (h : Ends rest) : Ends (ws ++ rest) := by
  cases ws with
  | nil => exact h
  | cons c ws =>
    have hc := hws c List.mem_cons_self
    simp only [isSpace, Bool.or_eq_true, decide_eq_true_eq] at hc
    rcases hc with ((rfl | rfl) | rfl) | rfl <;> exact .cons (by decide)

section
variable {rest : List Char} (h : Ends rest)
include h

theorem digitRun_digits (n : Nat) : digitRun (Decimal.digits n ++ rest) =
    (Decimal.digits n, rest) := by
  have hdigits : ∀ c ∈ Decimal.digits n, c.isDigit = true := fun _ => Decimal.isDigit_of_mem_digits
  have htake : rest.takeWhile Char.isDigit = [] := by
    cases rest with
    | nil => rfl
    | cons c rest => rw [List.takeWhile_cons, (h c rfl).1, if_neg Bool.false_ne_true]
  have hdrop : rest.dropWhile Char.isDigit = rest := by
    cases rest with
    | nil => rfl
    | cons c rest => rw [List.dropWhile_cons, (h c rfl).1, if_neg Bool.false_ne_true]
  rw [digitRun, List.takeWhile_append_of_pos hdigits, List.dropWhile_append_of_pos hdigits, htake,
    hdrop, List.append_nil]

theorem fraction_of_ends : fraction rest = some ([], rest) := by
  unfold fraction
  split
  · exact absurd rfl (h '.' rfl).2.1
  · rfl

theorem exponent_of_ends : exponent rest = some (false, [], rest) := by
  cases rest with
  | nil => rfl
  | cons c rest => exact if_neg (not_or.2 (h c rfl).2.2)

/-- **A number without sign** is read from its digits. -/
theorem unsigned_digits {n : Nat} (hn : inRange n 0 0 = true) (minus : Bool) :
    unsigned minus (Decimal.digits n ++ rest) = some
      (if !minus then .natural n else if n = 0 then .otherNumber else .negative n, rest) := by
  have hnumeral := Decimal.isNumeral_digits n
  rw [unsigned, digitRun_digits h]
  split
  · rename_i heq
    exact absurd (Prod.mk.inj heq).1 hnumeral.ne_nil
  · rename_i c cs _ heq
    have hdigits : Decimal.digits n = '0' :: c :: cs := (Prod.mk.inj heq).1
    have hzero := hnumeral.eq_zero (by rw [hdigits]; rfl)
    rw [hdigits] at hzero
    exact nomatch (List.cons.inj hzero).2
  · rename_i heq
    obtain ⟨rfl, rfl⟩ := Prod.mk.inj heq
    simp only [fraction_of_ends h, exponent_of_ends h, Option.bind_eq_bind, Option.bind_some,
      List.append_nil, Decimal.value_digits, List.length_nil, Bool.false_eq_true, if_false,
      show Decimal.value [] = 0 from rfl, Nat.add_zero, hn]
    rfl

end

/-! ### One step of the reader -/

section
variable {ws cs rest : List Char} {bound : Nat}

/-- After an item the list goes on or ends. -/
theorem items_succ : items (bound + 1) cs = (value bound cs).bind fun p =>
    match skipSpace p.2 with
    | ',' :: rest => (items bound rest).bind fun q => some (p.1 :: q.1, q.2)
    | ']' :: rest => some ([p.1], rest)
    | _ => none := rfl

/-- A field is a name and a value, and after it the record goes on or ends. -/
theorem fields_succ : fields (bound + 1) cs =
    match skipSpace cs with
    | '"' :: rest => (pieces rest).bind fun n =>
      match skipSpace n.2 with
      | ':' :: rest => (value bound rest).bind fun p =>
        match skipSpace p.2 with
        | ',' :: rest => (fields bound rest).bind fun q => some ((n.1, p.1) :: q.1, q.2)
        | '\x7d' :: rest => some ([(n.1, p.1)], rest)
        | _ => none
      | _ => none
    | _ => none := rfl

/-- The reader of a value passes white space over. -/
theorem value_space (hws : Blank ws) : value bound (ws ++ cs) = value bound cs := by
  cases bound with
  | zero => rfl
  | succ bound => rw [value, value, skipSpace_append hws]

theorem fields_space (hws : Blank ws) : fields bound (ws ++ cs) = fields bound cs := by
  cases bound with
  | zero => rfl
  | succ bound => rw [fields_succ, fields_succ, skipSpace_append hws]

theorem value_quote :
    value (bound + 1) ('"' :: cs) = (pieces cs).map fun p => (textOf p.1, p.2) := by
  change (pieces cs).bind _ = _
  cases pieces cs <;> rfl

theorem value_digit {c : Char} (hc : c.isDigit = true) :
    value (bound + 1) (c :: cs) = unsigned false (c :: cs) := by
  have hne : ∀ d : Char, d.isDigit = false → c ≠ d := fun d hd h =>
    absurd (h ▸ hc) (Bool.eq_false_iff.1 hd)
  have hspace : isSpace c = false := by
    simp only [isSpace, Bool.or_eq_false_iff, decide_eq_false_iff_not]
    exact ⟨⟨⟨hne _ (by decide), hne _ (by decide)⟩, hne _ (by decide)⟩, hne _ (by decide)⟩
  rw [value, skipSpace_cons hspace]
  split
  case h_7 =>
    unfold number
    split
    · exact absurd (List.cons.inj ‹_›).1 (hne _ (by decide))
    · rfl
  all_goals exact absurd (List.cons.inj ‹_›).1 (hne _ (by decide))

theorem value_minus : value (bound + 1) ('-' :: cs) = unsigned true cs := rfl

/-- No value begins with a closing bracket. -/
theorem value_of_close (h : skipSpace cs = ']' :: rest) : value bound cs = none := by
  cases bound with
  | zero => rfl
  | succ bound => rw [value, h]; rfl

theorem items_of_close (h : skipSpace cs = ']' :: rest) : items bound cs = none := by
  cases bound with
  | zero => rfl
  | succ bound => rw [items_succ, value_of_close h, Option.bind_none]

/-- No field begins with a closing brace. -/
theorem fields_of_close (h : skipSpace cs = '\x7d' :: rest) : fields bound cs = none := by
  cases bound with
  | zero => rfl
  | succ bound => rw [fields_succ, h]; rfl

theorem value_list_succ : value (bound + 1) ('[' :: cs) =
    match skipSpace cs with
    | ']' :: rest => some (.list [], rest)
    | _ => (items bound cs).bind fun p => some (.list p.1, p.2) := rfl

theorem value_bracket {p : List Json × List Char} (h : items bound cs = some p) :
    value (bound + 1) ('[' :: cs) = some (.list p.1, p.2) := by
  rw [value_list_succ]
  split
  · rename_i hclose
    rw [items_of_close hclose] at h
    cases h
  · rw [h, Option.bind_some]

theorem value_record_succ : value (bound + 1) ('\x7b' :: cs) =
    match skipSpace cs with
    | '\x7d' :: rest => some (.record [], rest)
    | _ => (fields bound cs).bind fun p => some (recordOf p.1, p.2) := rfl

theorem value_brace {p : List (List Piece × Json) × List Char} (h : fields bound cs = some p) :
    value (bound + 1) ('\x7b' :: cs) = some (recordOf p.1, p.2) := by
  rw [value_record_succ]
  split
  · rename_i hclose
    rw [fields_of_close hclose] at h
    cases h
  · rw [h, Option.bind_some]

theorem items_last {j : Json} {cs' : List Char} (h : value bound cs = some (j, cs'))
    (hskip : skipSpace cs' = ']' :: rest) : items (bound + 1) cs = some ([j], rest) := by
  rw [items_succ, h, Option.bind_some, hskip]
  rfl

theorem items_cons {j : Json} {p : List Json × List Char}
    (h : value bound cs = some (j, ',' :: rest)) (hitems : items bound rest = some p) :
    items (bound + 1) cs = some (j :: p.1, p.2) := by
  rw [items_succ, h, Option.bind_some]
  show (items bound rest).bind _ = _
  rw [hitems, Option.bind_some]

theorem fields_last {name : List Piece} {j : Json} {cs' : List Char}
    (hname : pieces cs = some (name, ':' :: ws)) (h : value bound ws = some (j, cs'))
    (hskip : skipSpace cs' = '\x7d' :: rest) :
    fields (bound + 1) ('"' :: cs) = some ([(name, j)], rest) := by
  rw [fields_succ]
  show (pieces cs).bind _ = _
  rw [hname, Option.bind_some]
  show (value bound ws).bind _ = _
  rw [h, Option.bind_some, hskip]
  rfl

theorem fields_cons {name : List Piece} {j : Json} {p : List (List Piece × Json) × List Char}
    (hname : pieces cs = some (name, ':' :: ws)) (h : value bound ws = some (j, ',' :: rest))
    (hfields : fields bound rest = some p) :
    fields (bound + 1) ('"' :: cs) = some ((name, j) :: p.1, p.2) := by
  rw [fields_succ]
  show (pieces cs).bind _ = _
  rw [hname, Option.bind_some]
  show (value bound ws).bind _ = _
  rw [h, Option.bind_some]
  show (fields bound rest).bind _ = _
  rw [hfields, Option.bind_some]

end

/-! ### Spellings -/

/-- The text is read as the value, whatever comes after it. A call of the reader takes a character,
so the length of the text bounds the descent. -/
def Spells (cs : List Char) (j : Json) : Prop := ∀ bound rest, cs.length ≤ bound → Ends rest →
  value bound (cs ++ rest) = some (j, rest)

/-- The text is read as the items of a list that is not empty, with its closing bracket. -/
def SpellsItems (cs : List Char) (js : List Json) : Prop := ∀ bound rest, cs.length ≤ bound →
  items bound (cs ++ rest) = some (js, rest)

/-- The text is read as the fields of a record that is not empty, with its closing brace. -/
def SpellsFields (cs : List Char) (fs : List (String × Json)) : Prop :=
  ∀ bound rest, cs.length ≤ bound → fields bound (cs ++ rest) = some (namedPieces fs, rest)

section
variable {ws cs cs' : List Char} {j : Json} {js : List Json} {fs : List (String × Json)}
  {name : String}

/-- A text with a first character is read in one step at least. -/
theorem Spells.of_succ {c : Char} (h : ∀ bound rest, cs.length ≤ bound → Ends rest →
    value (bound + 1) (c :: cs ++ rest) = some (j, rest)) : Spells (c :: cs) j := by
  intro bound rest hbound hrest
  cases bound with
  | zero => exact absurd hbound (Nat.not_succ_le_zero _)
  | succ bound => exact h bound rest (Nat.le_of_succ_le_succ hbound) hrest

theorem Spells.space (hws : Blank ws) (h : Spells cs j) : Spells (ws ++ cs) j := by
  intro bound rest hbound hrest
  rw [List.length_append] at hbound
  rw [List.append_assoc, value_space hws]
  exact h bound rest (by omega) hrest

theorem SpellsFields.space (hws : Blank ws) (h : SpellsFields cs fs) :
    SpellsFields (ws ++ cs) fs := by
  intro bound rest hbound
  rw [List.length_append] at hbound
  rw [List.append_assoc, fields_space hws]
  exact h bound rest (by omega)

theorem spells_null : Spells (scalar null) null :=
  .of_succ fun _ _ _ _ => rfl

theorem spells_bool (b : Bool) : Spells (scalar (bool b)) (bool b) := by
  cases b <;> exact .of_succ fun _ _ _ _ => rfl

theorem spells_text (s : String) : Spells (quote s) (text s) :=
  .of_succ fun bound rest _ _ => by
    rw [List.cons_append, value_quote, List.append_assoc, List.singleton_append, pieces_quote,
      Option.map_some, textOf_map_char]

theorem spells_natural {n : Nat} (hn : inRange n 0 0 = true) :
    Spells (scalar (natural n)) (natural n) := by
  have hdigits : ∀ c ∈ Decimal.digits n, c.isDigit = true := fun _ => Decimal.isDigit_of_mem_digits
  rw [scalar]
  cases hcs : Decimal.digits n with
  | nil => exact absurd hcs (Decimal.digits_ne_nil n)
  | cons c cs =>
    refine .of_succ fun bound rest _ hrest => ?_
    have hc : c.isDigit = true := hdigits c (hcs ▸ List.mem_cons_self)
    rw [List.cons_append, value_digit hc, ← List.cons_append, ← hcs, unsigned_digits hrest hn]
    rfl

theorem spells_negative {n : Nat} (hn : inRange n 0 0 = true) (hpos : 0 < n) :
    Spells (scalar (negative n)) (negative n) :=
  .of_succ fun bound rest _ hrest => by
    rw [List.cons_append, value_minus, unsigned_digits hrest hn, Bool.not_true,
      if_neg Bool.false_ne_true, if_neg (Nat.ne_of_gt hpos)]

/-! #### Lists and records -/

theorem spells_list_nil : Spells ['[', ']'] (.list []) :=
  .of_succ fun _ _ _ _ => rfl

theorem spells_record_nil : Spells ['\x7b', '\x7d'] (.record []) :=
  .of_succ fun _ _ _ _ => rfl

theorem SpellsItems.spells (h : SpellsItems cs js) : Spells ('[' :: cs) (.list js) :=
  .of_succ fun bound rest hbound _ => value_bracket (h bound rest hbound)

theorem SpellsFields.spells (h : SpellsFields cs fs) : Spells ('\x7b' :: cs) (.record fs) :=
  .of_succ fun bound rest hbound _ => by
    rw [List.cons_append, value_brace (h bound rest hbound), recordOf_namedPieces]

/-- The last item, with white space before the bracket. -/
theorem Spells.lastItem (h : Spells cs j) (hws : Blank ws) :
    SpellsItems (cs ++ (ws ++ [']'])) [j] := by
  intro bound rest hbound
  simp only [List.length_append, List.length_singleton] at hbound
  obtain ⟨bound, rfl⟩ : ∃ n, bound = n + 1 := ⟨bound - 1, by omega⟩
  have hends : Ends (ws ++ ']' :: rest) := .space hws (.cons (by decide))
  have hskip : skipSpace (ws ++ ']' :: rest) = ']' :: rest :=
    (skipSpace_append hws _).trans (skipSpace_cons (by decide) rest)
  rw [List.append_assoc, List.append_assoc, List.singleton_append]
  exact items_last (h bound _ (by omega) hends) hskip

theorem Spells.item (h : Spells cs j) (hs : SpellsItems cs' js) :
    SpellsItems (cs ++ ',' :: cs') (j :: js) := by
  intro bound rest hbound
  simp only [List.length_append, List.length_cons] at hbound
  obtain ⟨bound, rfl⟩ : ∃ n, bound = n + 1 := ⟨bound - 1, by omega⟩
  have hends : Ends (',' :: (cs' ++ rest)) := .cons (by decide)
  rw [List.append_assoc, List.cons_append]
  exact items_cons (h bound _ (by omega) hends) (hs bound rest (by omega))

/-- The last field, with white space before the brace. -/
theorem Spells.lastField (h : Spells cs j) (name : String) (hws : Blank ws) :
    SpellsFields (quote name ++ ':' :: (cs ++ (ws ++ ['\x7d']))) [(name, j)] := by
  intro bound rest hbound
  simp only [List.length_append, List.length_cons] at hbound
  obtain ⟨bound, rfl⟩ : ∃ n, bound = n + 1 := ⟨bound - 1, by omega⟩
  have hends : Ends (ws ++ '\x7d' :: rest) := .space hws (.cons (by decide))
  have hskip : skipSpace (ws ++ '\x7d' :: rest) = '\x7d' :: rest :=
    (skipSpace_append hws _).trans (skipSpace_cons (by decide) rest)
  simp only [quote, List.cons_append, List.append_assoc, List.nil_append]
  exact fields_last (pieces_quote name.toList _) (h bound _ (by omega) hends) hskip

theorem Spells.field (h : Spells cs j) (name : String) (hs : SpellsFields cs' fs) :
    SpellsFields (quote name ++ ':' :: (cs ++ ',' :: cs')) ((name, j) :: fs) := by
  intro bound rest hbound
  simp only [List.length_append, List.length_cons] at hbound
  obtain ⟨bound, rfl⟩ : ∃ n, bound = n + 1 := ⟨bound - 1, by omega⟩
  have hends : Ends (',' :: (cs' ++ rest)) := .cons (by decide)
  simp only [quote, List.cons_append, List.append_assoc, List.nil_append]
  exact fields_cons (pieces_quote name.toList _) (h bound _ (by omega) hends)
    (hs bound rest (by omega))

end
end Reader
end Json
end RouteSolver
