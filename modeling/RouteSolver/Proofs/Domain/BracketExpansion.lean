/-
# Classes in router patterns

To spell a class out is to copy it to its first closing bracket, with a backslash before a leading
one and, if it is negated, with the two marks before the last one (`ClassText.expands_text`).

A class with no other brackets inside has its end there. Then its expansion is read as the same
members and the marks (`ClassText.exists_reaches`), but for two places where a dash stands for
itself in the class and makes a range in its expansion: after the leading bracket (`BeginsRange`),
and before the marks (`OpenDash`).
-/

import RouteSolver.Proofs.Domain.RouterPattern
import RouteSolver.Proofs.Regex.BracketReading

namespace RouteSolver

open Delimited Regex Utf8

/-- The text of a class up to its first closing bracket. -/
structure ClassText where
  /-- The class has the bytes that are not listed. -/
  negated : Bool
  /-- A closing bracket stands first, as a member. -/
  leading : Bool
  /-- What comes then. -/
  body : List Char
  closed : Bracket.Without [']'] body
  /-- Without a leading bracket there is something else, and it is no sign of negation. -/
  begins : leading = false → body ≠ [] ∧ (negated = false → body.head? ≠ some '^')

namespace ClassText

/-- The sign of negation. -/
def sign (negated : Bool) : List Char := if negated then ['^'] else []

/-- The marks that a negated class excludes too. -/
def marks (negated : Bool) : List Char := if negated then ['\\', '^', '\\', '$'] else []

section
variable (c : ClassText)

/-- The class as it is written. -/
def text : List Char :=
  '[' :: (sign c.negated ++ ((if c.leading then [']'] else []) ++ (c.body ++ [']'])))

/-- The members, with a backslash before a leading bracket. -/
def contents : List Char := (if c.leading then ['\\', ']'] else []) ++ c.body

/-- The class spelled out. -/
def expanded : List Char := '[' :: (sign c.negated ++ (c.contents ++ (marks c.negated ++ [']'])))

end

/-! ### Spelling out -/

section
variable {start delimiter cs : List Char} {negated : Bool}

theorem expandFrom_without (h : Bracket.Without [']'] cs) (rest : List Char) :
    expandFrom start delimiter (.bracket negated) (cs ++ rest) =
      cs ++ expandFrom start delimiter (.bracket negated) rest := by
  induction h with
  | nil => rfl
  | escaped c _ ih =>
    rw [List.cons_append, List.cons_append, expandFrom]
    exact congrArg ('\\' :: c :: ·) ih
  | @char c cs hc _ ih =>
    have hback : c ≠ '\\' := (ne_of_mem_of_not_mem (by decide) hc).symm
    have hend : c ≠ ']' := (ne_of_mem_of_not_mem (by decide) hc).symm
    rw [List.cons_append, expandFrom_cons hback, expandChar, insideBracket, if_neg hend]
    exact congrArg (c :: ·) ih

/-- Where a class begins. -/
def place (negated : Bool) : Place := if negated then .negatedStart else .bracketStart

theorem expandFrom_place (h : Bracket.Without [']'] cs) (hne : cs ≠ [])
    (hcaret : negated = false → cs.head? ≠ some '^') (rest : List Char) :
    expandFrom start delimiter (place negated) (cs ++ rest) =
      expandFrom start delimiter (.bracket negated) (cs ++ rest) := by
  cases h with
  | nil => exact absurd rfl hne
  | escaped c h =>
    rw [List.cons_append, List.cons_append, expandFrom, expandFrom]
    cases negated <;> rfl
  | @char c cs hc h =>
    have hback : c ≠ '\\' := (ne_of_mem_of_not_mem (by decide) hc).symm
    have hend : c ≠ ']' := (ne_of_mem_of_not_mem (by decide) hc).symm
    rw [List.cons_append, expandFrom_cons hback, expandFrom_cons hback]
    cases negated with
    | false =>
      have hne : c ≠ '^' := fun h => hcaret rfl (congrArg some h)
      rw [place, if_neg (by decide), expandChar, if_neg hne, if_neg hend]
      rfl
    | true =>
      rw [place, if_pos rfl, expandChar, if_neg hend]
      rfl

/-- **A class is spelled out** by itself: nothing in it is taken for an anchor or a delimiter. -/
theorem expands_text (c : ClassText) : Expands start delimiter c.text c.expanded := by
  intro rest
  have hopen : ∀ cs, expandFrom start delimiter .outside ('[' :: (sign c.negated ++ cs)) =
      '[' :: (sign c.negated ++ expandFrom start delimiter (place c.negated) cs) := fun cs => by
    rw [expandFrom_cons (by decide), sign, place]
    cases c.negated with
    | false => rfl
    | true => exact congrArg ('[' :: ·) (expandFrom_cons (by decide) cs .bracketStart)
  have hleading : ∀ cs, expandFrom start delimiter (place c.negated) (']' :: cs) =
      '\\' :: ']' :: expandFrom start delimiter (.bracket c.negated) cs := fun cs => by
    rw [expandFrom_cons (by decide), place]
    cases c.negated <;> rfl
  have hbody : expandFrom start delimiter (.bracket c.negated) (c.body ++ ']' :: rest) =
      c.body ++ (marks c.negated ++ ']' :: expandFrom start delimiter .outside rest) := by
    rw [expandFrom_without c.closed, expandFrom_cons (by decide), expandChar, insideBracket,
      if_pos rfl, marks]
    cases c.negated <;> rfl
  have htext : c.text ++ rest = '[' :: (sign c.negated ++
      ((if c.leading then [']'] else []) ++ (c.body ++ ']' :: rest))) := by
    simp [text]
  rw [htext, hopen, expanded, contents]
  cases hlead : c.leading with
  | false =>
    obtain ⟨hne, hcaret⟩ := c.begins hlead
    rw [if_neg Bool.false_ne_true, List.nil_append, expandFrom_place c.closed hne hcaret, hbody]
    simp
  | true =>
    rw [if_pos rfl, List.singleton_append, hleading, hbody]
    simp

end

/-! ### Reading -/

section
open Bracket

variable {st st' : State} {cs mid rest : List Char} {items : List ClassTree} {negated : Bool}

/-- A dash as a member. -/
def dash : ClassTree := .literal ⟨'-', false⟩

theorem leadingDashes_replicate (hcs : cs.head? ≠ some '-') {k n : Nat} (hk : k ≤ n) :
    leadingDashes false n (List.replicate k '-' ++ cs) = (List.replicate k dash, cs) := by
  induction k generalizing n with
  | zero =>
    rw [List.replicate_zero, List.nil_append]
    unfold leadingDashes
    split
    · exact absurd rfl hcs
    · rfl
  | succ k ih =>
    obtain ⟨n, rfl⟩ := Nat.exists_eq_add_one_of_ne_zero (Nat.ne_zero_of_lt hk)
    rw [List.replicate_succ, List.cons_append, leadingDashes, ahead_false,
      ih (Nat.le_of_succ_le_succ hk)]
    rfl

/-- A text begins with some dashes. -/
theorem exists_dashes (cs : List Char) :
    ∃ k ds, cs = List.replicate k '-' ++ ds ∧ ds.head? ≠ some '-' := by
  induction cs with
  | nil => exact ⟨0, [], rfl, (Option.some_ne_none _).symm⟩
  | cons c cs ih =>
    by_cases hc : c = '-'
    · obtain ⟨k, ds, rfl, hds⟩ := ih
      exact ⟨k + 1, ds, by rw [hc, List.replicate_succ]; rfl, hds⟩
    · exact ⟨0, c :: cs, rfl, fun h => hc (Option.some.inj h)⟩

theorem opening_leading (negated : Bool) (cs : List Char) :
    opening false (sign negated ++ ']' :: cs) = (negated, [.literal ⟨']', false⟩], cs) := by
  cases negated <;> rfl

theorem opening_dashes {k : Nat} (hdash : mid.head? ≠ some '-')
    (hcs : cs = List.replicate k '-' ++ mid) (hend : cs.head? ≠ some ']')
    (hcaret : negated = false → cs.head? ≠ some '^') :
    opening false (sign negated ++ cs) = (negated, List.replicate k dash, mid) := by
  have hdashes : leadingDashes false cs.length cs = (List.replicate k dash, mid) := by
    have hle : k ≤ cs.length := by
      rw [hcs, List.length_append, List.length_replicate]
      exact Nat.le_add_right k _
    rw [hcs] at hle ⊢
    exact leadingDashes_replicate hdash hle
  have hclosing : ∀ rest, List.replicate k dash = [] → mid ≠ ']' :: rest := by
    rintro rest hk rfl
    obtain rfl := (List.replicate_eq_nil_iff _).1 hk
    exact hend (hcs ▸ rfl)
  cases negated with
  | true =>
    unfold opening
    simp only [ahead_false, sign, if_true, List.singleton_append, hdashes]
  | false =>
    have hsign : ∀ rest, cs ≠ '^' :: rest := by
      rintro rest rfl
      exact hcaret rfl rfl
    unfold opening
    simp only [ahead_false, sign, Bool.false_eq_true, if_false, List.nil_append, hdashes]

/-- The class is entered. -/
theorem leads_opening (h : opening false cs = (negated, items, mid))
    (hlen : mid.length ≤ cs.length) :
    Leads ⟨[], []⟩ ('[' :: cs) ⟨items.reverse, [.bracket [] negated]⟩ mid := by
  refine .step (Nat.lt_succ_of_le hlen) fun n => ?_
  rw [readWithin, ahead_false]
  simp only [h]
  rfl

/-- What is read from the beginning is read from wherever it leads. -/
theorem exists_readWithin {r : Tree × List Char} (h : Leads ⟨[], []⟩ cs st mid)
    (hread : Bracket.read false cs = some r) : ∃ n, readWithin false n st mid = some r := by
  obtain ⟨k, hk, heq⟩ := h
  obtain ⟨n, hn⟩ : ∃ n, cs.length + 1 = k + n := ⟨cs.length + 1 - k, by omega⟩
  rw [Bracket.read, hn, heq] at hread
  exact ⟨n, hread⟩

/-- The closing bracket ends the class. -/
theorem read_of_leads {inner : ClassTree} (h : Leads ⟨[], []⟩ cs st (']' :: rest))
    (hclose : st.close = (inner, [.bracket [] negated])) :
    Bracket.read false cs = some (.bracket negated inner, rest) := by
  obtain ⟨k, hk, heq⟩ := h
  obtain ⟨n, hn⟩ : ∃ n, cs.length + 1 = k + (n + 1) := ⟨cs.length - k, by
    rw [List.length_cons] at hk
    omega⟩
  have hend : readWithin false (n + 1) st (']' :: rest) = some (.bracket negated inner, rest) := by
    rw [readWithin, ahead_false]
    simp only [hclose]
    rfl
  rw [Bracket.read, hn, heq, hend]

/-- A dash right after a leading bracket, followed by something else than a dash. With a backslash
before the bracket they make a range. -/
def BeginsRange (cs : List Char) : Prop := ∃ d ds, cs = '-' :: d :: ds ∧ d ≠ '-'

/-- A leading bracket with a backslash is the same member. -/
theorem through_leading {w : List Waiting} (hcs : Plain cs) (hrange : ¬BeginsRange cs)
    (h : Through ⟨[.literal ⟨']', false⟩], w⟩ cs st') :
    Through ⟨[], w⟩ ('\\' :: ']' :: cs) st' := by
  have htakes : Takes (item false) ('\\' :: ']' :: cs) (.literal ⟨']', false⟩) cs :=
    ⟨hcs, Nat.le_add_right _ 2, fun _ => rfl⟩
  have hlt : cs.length < ('\\' :: ']' :: cs).length := Nat.lt_succ_of_lt (Nat.lt_succ_self _)
  refine .piece (.escaped ']' hcs) rfl ?_ h
  by_cases hdash : cs = ['-']
  · exact piece_openDash htakes hlt hdash rfl
  · refine piece_single htakes hlt ?_ rfl
    rintro ds rfl
    cases ds with
    | nil => exact absurd rfl hdash
    | cons d ds => exact congrArg some (not_not.1 fun hd => hrange ⟨d, ds, rfl, hd⟩)

/-- Dashes at the beginning leave an open dash open. -/
theorem openDash_replicate (hdash : cs.head? ≠ some '-') (h : OpenDash cs) :
    ∀ k, OpenDash (List.replicate k '-' ++ cs)
  | 0 => h
  | 1 => by
    have hop : operator? ('-' :: cs) = none := by
      cases cs with
      | nil => rfl
      | cons c cs =>
        have hc : c ≠ '-' := fun hc => hdash (congrArg some hc)
        unfold operator?
        split <;> simp_all
    exact .single hop (item_char (by decide)) (fun ds hds =>
      absurd (show cs.head? = some '-' from congrArg List.head? hds) hdash) h
  | k + 2 => .operator rfl (openDash_replicate hdash h k)

theorem plain_of_replicate {k : Nat} (h : Plain (List.replicate k '-' ++ cs)) : Plain cs := by
  induction k with
  | zero => exact h
  | succ k ih =>
    rw [List.replicate_succ, List.cons_append] at h
    exact ih (h.tail (by decide))

/-- A class without a leading bracket is entered behind its leading dashes. -/
theorem leads_dashes {c : ClassText} (hlead : c.leading = false) {k : Nat}
    (hbody : c.body = List.replicate k '-' ++ mid) (hmid : mid.head? ≠ some '-') {d : Char}
    (hd : d ≠ '-') (tail : List Char) :
    Leads ⟨[], []⟩ ('[' :: (sign c.negated ++ (c.body ++ d :: tail)))
      ⟨(List.replicate k dash).reverse, [.bracket [] c.negated]⟩ (mid ++ d :: tail) := by
  obtain ⟨hne, hcaret⟩ := c.begins hlead
  have hhead : (c.body ++ d :: tail).head? = c.body.head? := List.head?_append_of_ne_nil _ hne
  have hend : c.body.head? ≠ some ']' := by
    intro hend
    cases hcs : c.body with
    | nil => exact hne hcs
    | cons e es =>
      rw [hcs, List.head?_cons, Option.some.injEq] at hend
      have hclosed := c.closed
      rw [hcs, hend] at hclosed
      exact hclosed.not_mem (by decide) (List.mem_singleton.2 rfl)
  have hmid' : (mid ++ d :: tail).head? ≠ some '-' := by
    cases mid with
    | nil => exact fun h => hd (Option.some.inj h)
    | cons e es => exact hmid
  refine leads_opening (opening_dashes hmid' ?_ (hhead ▸ hend) fun hneg => hhead ▸ hcaret hneg) ?_
  · rw [hbody, List.append_assoc]
  · rw [hbody]
    simp only [List.length_append]
    omega

/-- The class and its expansion lead to this state before the closing bracket. The expansion does so
before the marks too, unless it ends in an open dash. -/
structure Reaches (c : ClassText) (st : State) : Prop where
  inside : Inside c.negated st
  text (rest : List Char) : Leads ⟨[], []⟩ (c.text ++ rest) st (']' :: rest)
  closing (rest : List Char) :
    Leads ⟨[], []⟩ ('[' :: (sign c.negated ++ (c.contents ++ ']' :: rest))) st (']' :: rest)
  escaping (h : ¬OpenDash c.contents) (tail : List Char) :
    Leads ⟨[], []⟩ ('[' :: (sign c.negated ++ (c.contents ++ '\\' :: tail))) st ('\\' :: tail)

section
variable {c : ClassText} {r : Tree × List Char}

/-- Without a leading bracket the members of both texts are the same. -/
theorem exists_reaches_of_not_leading (hl : c.leading = false) (hplain : Plain c.body)
    (h : Bracket.read false (c.text ++ rest) = some r) : ∃ st, c.Reaches st := by
  have hcontents : c.contents = c.body := by
    rw [contents, hl]
    rfl
  have htext : ∀ rest, c.text ++ rest = '[' :: (sign c.negated ++ (c.body ++ ']' :: rest)) := by
    simp [text, hl]
  obtain ⟨k, mid, hbody, hmid⟩ := exists_dashes c.body
  have henter := fun d hd tail => leads_dashes (d := d) hl hbody hmid hd tail
  rw [htext] at h
  obtain ⟨n, hread⟩ := exists_readWithin (henter ']' (by decide) rest) h
  obtain ⟨st, hst⟩ := exists_through (plain_of_replicate (hbody ▸ hplain)) hread
  have hdashes : Inside c.negated ⟨(List.replicate k dash).reverse, [.bracket [] c.negated]⟩ :=
    .items fun t ht => by
      rw [List.eq_of_mem_replicate (List.mem_reverse.1 ht)]
      rfl
  have hclosing := fun rest => (henter ']' (by decide) rest).trans (hst.closing rest)
  refine ⟨st, hst.inside hdashes, fun rest => htext rest ▸ hclosing rest,
    fun rest => hcontents ▸ hclosing rest, fun hopen tail => ?_⟩
  rw [hcontents] at hopen ⊢
  rw [hbody] at hopen
  exact (henter '\\' (by decide) tail).trans
    (hst.escaping (fun h' => hopen (openDash_replicate hmid h' k)) tail)

/-- A leading bracket is a member at once in the class, and after its backslash in the expansion. -/
theorem exists_reaches_of_leading (hl : c.leading = true) (hplain : Plain c.body)
    (hrange : ¬BeginsRange c.body) (h : Bracket.read false (c.text ++ rest) = some r) :
    ∃ st, c.Reaches st := by
  have hcontents : c.contents = '\\' :: ']' :: c.body := by
    rw [contents, hl]
    rfl
  have htext : ∀ rest, c.text ++ rest =
      '[' :: (sign c.negated ++ ']' :: (c.body ++ ']' :: rest)) := by
    simp [text, hl]
  have henter : ∀ rest, Leads ⟨[], []⟩ (c.text ++ rest)
      ⟨[.literal ⟨']', false⟩], [.bracket [] c.negated]⟩ (c.body ++ ']' :: rest) := by
    intro rest
    rw [htext]
    refine leads_opening (opening_leading _ _) ?_
    simp only [List.length_append, List.length_cons]
    omega
  have henter' : ∀ tail, Leads ⟨[], []⟩ ('[' :: (sign c.negated ++ (c.contents ++ tail)))
      ⟨[], [.bracket [] c.negated]⟩ (c.contents ++ tail) := by
    intro tail
    have hback : ∀ d, d ≠ '\\' → (c.contents ++ tail).head? ≠ some d := fun d hd h => by
      rw [hcontents] at h
      exact hd (Option.some.inj h).symm
    refine leads_opening (opening_dashes (k := 0) (hback '-' (by decide)) rfl
      (hback ']' (by decide)) fun _ => hback '^' (by decide)) ?_
    simp only [List.replicate_zero, List.nil_append, List.length_append]
    omega
  obtain ⟨n, hread⟩ := exists_readWithin (henter rest) h
  obtain ⟨st, hst⟩ := exists_through hplain hread
  have hescaped := through_leading hplain hrange hst
  have hin : Inside c.negated ⟨[.literal ⟨']', false⟩], [.bracket [] c.negated]⟩ :=
    .items (List.forall_mem_singleton.2 rfl)
  refine ⟨st, hst.inside hin, fun rest => (henter rest).trans (hst.closing rest),
    fun rest => (henter' _).trans ?_, fun hopen tail => (henter' _).trans ?_⟩
  · rw [hcontents]
    exact hescaped.closing rest
  · rw [hcontents] at hopen ⊢
    exact hescaped.escaping hopen tail

/-- **A class is read** as what stands between its brackets, the class and its expansion alike. -/
theorem exists_reaches (c : ClassText) (hplain : Plain c.body)
    (h : Bracket.read false (c.text ++ rest) = some r)
    (hlead : c.leading = true → ¬BeginsRange c.body) : ∃ st, c.Reaches st := by
  cases hl : c.leading with
  | false => exact exists_reaches_of_not_leading hl hplain h
  | true => exact exists_reaches_of_leading hl hplain (hlead hl) h

end

end

end ClassText

end RouteSolver
