/-
# Searching for router patterns

A router pattern searches: the texts that it selects are those that contain a match of it
(`matching_text`). The pattern is spelled out between two `.*` and the whole is matched, so this
needs that nothing in the pattern reaches around it. A bar would.

Alternatives at the top level are no search for either of them. The `.*` before them belongs to the
first branch and the one after them to the last, so the first branch is only found at the end of a
text, the last one only at its start, and a branch between them has to be all of it
(`matching_alternation`). Since every text begins and ends with a mark, what plain numbers select is
lost when a bar is put between them (`matching_oneOrTwo`).
-/

import RouteSolver.Proofs.Automaton.Boolean
import RouteSolver.Proofs.Domain.RouterReading
import RouteSolver.Proofs.Domain.Universe

namespace RouteSolver

open Decimal Delimited Regex Utf8

/-! ### Texts of a form -/

namespace TextForm

/-- All texts of the form. -/
def all : TextForm → Automaton
  | community => allCommunities
  | asPath => allAsPaths

/-- The texts that a pattern selects. -/
def matching : TextForm → String → Except InvalidPattern Automaton
  | community => matchingCommunities
  | asPath => matchingAsPaths

/-- A pattern spelled out between two wildcards. -/
def searchPattern : TextForm → String → String
  | community => Delimited.communityPattern
  | asPath => Delimited.asPathPattern

variable (form : TextForm)

theorem valid_all : form.all.Valid := by
  cases form with
  | community => exact valid_allCommunities
  | asPath => exact valid_allAsPaths

theorem matching_eq (pattern : String) : form.matching pattern =
    (Automaton.ofPattern (form.searchPattern pattern)).map (·.inter form.all) := by
  cases form <;> rfl

theorem toList_searchPattern (pattern : String) : (form.searchPattern pattern).toList =
    '.' :: '*' :: (expandFrom form.startChars form.delimiterChars .outside pattern.toList ++
      ['.', '*']) := by
  cases form with
  | community =>
    rw [searchPattern, Delimited.communityPattern, Delimited.searchPattern]
    simp [startChars, delimiterChars]
  | asPath =>
    rw [searchPattern, Delimited.asPathPattern, Delimited.searchPattern]
    simp [startChars, delimiterChars]

/-- No text has a line feed, which a dot would not match. -/
theorem ne_lineFeed {w : List UInt8} (h : form.all.acceptsBytes w = true) : ∀ b ∈ w, b ≠ 10 := by
  have hne : ∀ cs : List Char, IsAscii cs → '\n' ∉ cs → ∀ b ∈ ascii cs, b ≠ 10 := by
    intro cs hascii hcs b hb
    obtain ⟨c, hc, rfl⟩ := List.mem_map.1 hb
    exact fun h10 => hcs ((byteOf_inj (d := '\n') (hascii c hc) (by decide)).1 h10 ▸ hc)
  have hdigits : ∀ n, '\n' ∉ digits n := not_mem_digits (by decide)
  cases form with
  | community =>
    obtain ⟨m, n, -, -, rfl⟩ := (acceptsBytes_allCommunities w).1 h
    refine hne _ (isAscii_communityChars m n) ?_
    simp [communityChars, colonNumbers, hdigits]
  | asPath =>
    obtain ⟨ns, rfl⟩ := (acceptsBytes_allAsPaths w).1 h
    refine hne _ (isAscii_asPathChars ns) ?_
    cases ns <;> simp [asPathChars, spacedNumbers, hdigits]

end TextForm

/-! ### Alternatives -/

/-- Router patterns with bars between them. -/
structure Alternatives where
  first : RouterPattern
  more : List RouterPattern

namespace Alternatives

/-- All the alternatives. -/
def patterns (r : Alternatives) : List RouterPattern := r.first :: r.more

/-- The last alternative. -/
def last (r : Alternatives) : RouterPattern := r.patterns.getLast (List.cons_ne_nil _ _)

/-- Alternatives of both. -/
def or (r s : Alternatives) : Alternatives := ⟨r.first, r.more ++ s.patterns⟩

/-- The text of some alternatives. -/
def text (r : Alternatives) : String :=
  String.ofList (r.first.spell .router ++ RouterPattern.spellMore .router r.more)

/-- What a search for the alternatives is read as. -/
def searchTree (form : TextForm) (r : Alternatives) : Tree :=
  .ofBranches ((openEnded (anyPiece :: r.first.pieces form)
    (RouterPattern.piecesMore form r.more)).map .ofPieces)

/-- The counts fit in 32 bits, and the parts are not nested too deep. -/
def IsRead (form : TextForm) (r : Alternatives) : Prop :=
  (r.first.fits && RouterPattern.fitsMore r.more) = true ∧
    (r.searchTree form).height ≤ nestingLimit

instance (form : TextForm) (r : Alternatives) : Decidable (r.IsRead form) :=
  inferInstanceAs (Decidable (_ ∧ _))

/-- **A pattern is read** unless it is nested deeper than usual. -/
theorem isRead_of_depth {form : TextForm} {r : Alternatives}
    (hfits : (r.first.fits && RouterPattern.fitsMore r.more) = true)
    (hfirst : r.first.depth ≤ 81) (hmore : RouterPattern.depthMore r.more ≤ 81) :
    r.IsRead form := by
  have hpieces := r.first.heights_pieces_le form hfirst
  have hany : Tree.heights (anyPiece :: r.first.pieces form) ≤ 3 * (81 + 1) :=
    Tree.heights_le_iff.2 (List.forall_mem_cons.2 ⟨by decide, Tree.heights_le_iff.1 hpieces⟩)
  exact ⟨hfits, Nat.le_trans (Tree.height_branches_le (heights_openEnded_le (by decide) hany
    (RouterPattern.heights_piecesMore_le form r.more hmore))) (by decide)⟩

theorem spellMore_append (s : Spelling) (ps qs : List RouterPattern) :
    RouterPattern.spellMore s (ps ++ qs) =
      RouterPattern.spellMore s ps ++ RouterPattern.spellMore s qs := by
  induction ps with
  | nil => rfl
  | cons p ps ih =>
    rw [List.cons_append, RouterPattern.spellMore, ih, RouterPattern.spellMore, List.cons_append,
      List.append_assoc]

theorem text_or (r s : Alternatives) : (r.or s).text = r.text ++ "|" ++ s.text := by
  rw [← String.toList_inj, text, or, patterns, spellMore_append, RouterPattern.spellMore]
  simp [text]

/-! ### What is found -/

/-- What alternatives find of which the first one has the language `l`: only the last one may have
anything after it. -/
def FoundFrom (start : List UInt8) (l : List UInt8 → Prop) :
    List RouterPattern → List UInt8 → Prop
  | [], w => ∃ u v, w = u ++ v ∧ l u ∧ ∀ b ∈ v, b ≠ 10
  | p :: ps, w => l w ∨ FoundFrom start (p.Matches start) ps w

/-- What alternatives find: only the first one may have anything before it. -/
def Found (start : List UInt8) (r : Alternatives) : List UInt8 → Prop :=
  FoundFrom start (fun w => ∃ u v, w = u ++ v ∧ (∀ b ∈ u, b ≠ 10) ∧ r.first.Matches start v) r.more

theorem choiceMeans_openEnded (form : TextForm) {ts : List Tree} {l : List UInt8 → Prop}
    (h : Tree.RowMeans ts l) (ps : List RouterPattern) :
    Tree.ChoiceMeans ((openEnded ts (RouterPattern.piecesMore form ps)).map .ofPieces)
      (FoundFrom form.start l ps) := by
  induction ps generalizing ts l with
  | nil =>
    have hend := (h.append (.single means_anyPiece)).ofPieces
    exact (Tree.ChoiceMeans.cons hend .nil).congr fun w => by rw [or_false]; rfl
  | cons p ps ih => exact .cons h.ofPieces (ih (p.rowMeans_pieces form))

theorem means_searchTree (form : TextForm) (r : Alternatives) :
    (r.searchTree form).Means (r.Found form.start) :=
  (choiceMeans_openEnded form ((Tree.RowMeans.single means_anyPiece).append
    (r.first.rowMeans_pieces form)) r.more).ofBranches

theorem toList_searchPattern_text (form : TextForm) (r : Alternatives) :
    (form.searchPattern r.text).toList = '.' :: '*' :: (r.first.spell form.spelling ++
      (RouterPattern.spellMore form.spelling r.more ++ ['.', '*'])) := by
  have hexpand : Expands form.startChars form.delimiterChars
      (r.first.spell .router ++ RouterPattern.spellMore .router r.more)
      (r.first.spell form.spelling ++ RouterPattern.spellMore form.spelling r.more) :=
    (expands_spell r.first).append (expands_spellMore r.more)
  have hall := hexpand []
  rw [List.append_nil] at hall
  rw [form.toList_searchPattern, text, String.toList_ofList, hall, expandFrom, List.append_nil,
    List.append_assoc]

theorem read?_searchPattern (form : TextForm) (r : Alternatives) :
    Tree.read? (form.searchPattern r.text).toList =
      if r.IsRead form then some (r.searchTree form) else none := by
  rw [r.toList_searchPattern_text, read?_search (r.first.readsPieces_spell form)
    (RouterPattern.readsBranches_spellMore form r.more)]
  rfl

/-- **The automaton of alternatives** has what they find, in the texts of the form. -/
theorem exists_matching {form : TextForm} {r : Alternatives} (h : r.IsRead form) :
    ∃ a, form.matching r.text = .ok a ∧ a.Valid ∧ ∀ w, a.acceptsBytes w = true ↔
      form.all.acceptsBytes w = true ∧ r.Found form.start w := by
  obtain ⟨e, he, hmeans⟩ := r.means_searchTree form
  have hread : Expr.read? (form.searchPattern r.text) = some e := by
    rw [Expr.read?, r.read?_searchPattern, if_pos h]
    simp only [Option.bind_eq_bind, Option.bind_some, he]
    rfl
  have hvalid := Automaton.valid_ofExpr e
  refine ⟨(Automaton.ofExpr e).inter form.all, ?_, hvalid.inter form.valid_all, fun w => ?_⟩
  · rw [form.matching_eq, Automaton.ofPattern, hread]
    rfl
  · rw [hvalid.acceptsBytes_inter form.valid_all, Bool.and_eq_true, Automaton.acceptsBytes_ofExpr,
      hmeans.language_iff, and_comm]

theorem exists_error {form : TextForm} {r : Alternatives} (h : ¬r.IsRead form) :
    ∃ e, form.matching r.text = .error e := by
  have hread : Expr.read? (form.searchPattern r.text) = none := by
    rw [Expr.read?, r.read?_searchPattern, if_neg h]
    rfl
  rw [form.matching_eq, Automaton.ofPattern, hread]
  exact ⟨_, rfl⟩

/-- What alternatives select, if what they find in texts without line feeds is known. -/
theorem matching_alternatives (form : TextForm) (r : Alternatives) {l : List UInt8 → Prop}
    (hl : ∀ w, (∀ b ∈ w, b ≠ 10) → (r.Found form.start w ↔ l w)) :
    match form.matching r.text with
    | .ok a => r.IsRead form ∧
        ∀ w, a.acceptsBytes w = true ↔ form.all.acceptsBytes w = true ∧ l w
    | .error _ => ¬r.IsRead form := by
  by_cases h : r.IsRead form
  · obtain ⟨a, ha, -, haccepts⟩ := exists_matching h
    rw [ha]
    exact ⟨h, fun w => (haccepts w).trans (and_congr_right fun hw => hl w (form.ne_lineFeed hw))⟩
  · obtain ⟨e, he⟩ := exists_error h
    rw [he]
    exact h

/-! ### Found in a text -/

section
variable {form : TextForm} {w : List UInt8}

theorem found_single_iff (hw : ∀ b ∈ w, b ≠ 10) (start : List UInt8) (p : RouterPattern) :
    Found start ⟨p, []⟩ w ↔ ∃ x m y, w = x ++ m ++ y ∧ p.Matches start m := by
  constructor
  · rintro ⟨_, y, rfl, ⟨x, m, rfl, -, hm⟩, -⟩
    exact ⟨x, m, y, rfl, hm⟩
  · rintro ⟨x, m, y, rfl, hm⟩
    simp only [List.forall_mem_append] at hw
    exact ⟨x ++ m, y, rfl, ⟨x, m, rfl, hw.1.1, hm⟩, hw.2⟩

theorem foundFrom_append_iff (start : List UInt8) {l : List UInt8 → Prop}
    (ps : List RouterPattern) (q : RouterPattern) (qs : List RouterPattern) :
    FoundFrom start l (ps ++ q :: qs) w ↔
      l w ∨ (∃ p ∈ ps, p.Matches start w) ∨ FoundFrom start (q.Matches start) qs w := by
  induction ps generalizing l with
  | nil => simp [FoundFrom]
  | cons p ps ih => rw [List.cons_append, FoundFrom, ih, List.exists_mem_cons_iff, or_assoc]

theorem foundFrom_last_iff (hw : ∀ b ∈ w, b ≠ 10) (start : List UInt8) (p : RouterPattern)
    (ps : List RouterPattern) : FoundFrom start (p.Matches start) ps w ↔
      (∃ q ∈ (p :: ps).dropLast, q.Matches start w) ∨
        ∃ m y, w = m ++ y ∧ ((p :: ps).getLast (List.cons_ne_nil _ _)).Matches start m := by
  induction ps generalizing p with
  | nil =>
    constructor
    · rintro ⟨m, y, rfl, hm, -⟩
      exact .inr ⟨m, y, rfl, hm⟩
    · rintro (⟨q, hq, -⟩ | ⟨m, y, rfl, hm⟩)
      · exact absurd hq List.not_mem_nil
      · exact ⟨m, y, rfl, hm, (List.forall_mem_append.1 hw).2⟩
  | cons q ps ih =>
    rw [FoundFrom, ih, List.dropLast_cons_cons, List.exists_mem_cons_iff, or_assoc,
      List.getLast_cons_cons]

/-- What is found by alternatives of both `r` and `s`. -/
theorem found_or_iff (hw : ∀ b ∈ w, b ≠ 10) (start : List UInt8) (r s : Alternatives) :
    (r.or s).Found start w ↔ (∃ x m, w = x ++ m ∧ r.first.Matches start m) ∨
      (∃ p ∈ r.more ++ s.patterns.dropLast, p.Matches start w) ∨
      ∃ m y, w = m ++ y ∧ s.last.Matches start m := by
  have hfirst : (∃ u v, w = u ++ v ∧ (∀ b ∈ u, b ≠ 10) ∧ r.first.Matches start v) ↔
      ∃ x m, w = x ++ m ∧ r.first.Matches start m := by
    constructor
    · rintro ⟨x, m, rfl, -, hm⟩
      exact ⟨x, m, rfl, hm⟩
    · rintro ⟨x, m, rfl, hm⟩
      exact ⟨x, m, rfl, (List.forall_mem_append.1 hw).1, hm⟩
  rw [Found, or, patterns, foundFrom_append_iff, foundFrom_last_iff hw, hfirst]
  simp only [List.mem_append, or_and_right, exists_or, or_assoc]
  rfl

end

end Alternatives

/-! ### Searches -/

theorem RouterPattern.text_eq (p : RouterPattern) : p.text = (Alternatives.mk p []).text :=
  congrArg String.ofList (List.append_nil _).symm

/-- **A router pattern searches.** If it can be read, it selects the texts of the form that contain
a match of it. -/
theorem matching_text (form : TextForm) (p : RouterPattern) :
    match form.matching p.text with
    | .ok a => (Alternatives.mk p []).IsRead form ∧ ∀ w, a.acceptsBytes w = true ↔
        form.all.acceptsBytes w = true ∧ ∃ x m y, w = x ++ m ++ y ∧ p.Matches form.start m
    | .error _ => ¬(Alternatives.mk p []).IsRead form := by
  rw [p.text_eq]
  exact Alternatives.matching_alternatives form ⟨p, []⟩ fun w hw =>
    Alternatives.found_single_iff hw form.start p

/-- **A bar splits the search.** Of the alternatives on both sides of a bar the first one is found
at the end of a text, the last one at its start, and any other has to be all of it. -/
theorem matching_alternation (form : TextForm) (r s : Alternatives) :
    match form.matching (r.text ++ "|" ++ s.text) with
    | .ok a => (r.or s).IsRead form ∧ ∀ w, a.acceptsBytes w = true ↔
        form.all.acceptsBytes w = true ∧
          ((∃ x m, w = x ++ m ∧ r.first.Matches form.start m) ∨
            (∃ p ∈ r.more ++ s.patterns.dropLast, p.Matches form.start w) ∨
            ∃ m y, w = m ++ y ∧ s.last.Matches form.start m)
    | .error _ => ¬(r.or s).IsRead form := by
  rw [← Alternatives.text_or]
  exact Alternatives.matching_alternatives form (r.or s) fun w hw =>
    Alternatives.found_or_iff hw form.start r s

/-- The community 0:1 has a match of the pattern `1`, but is not selected by `1|2`. -/
theorem matching_oneOrTwo : ∃ a b c, matchingCommunities "1" = .ok a ∧
    matchingCommunities "2" = .ok b ∧ matchingCommunities "1|2" = .ok c ∧
      a.accepts "^0:1$" = true ∧ c.accepts "^0:1$" = false := by
  let one : Alternatives := ⟨.symbol (.char '1' (by decide)), []⟩
  let two : Alternatives := ⟨.symbol (.char '2' (by decide)), []⟩
  have hw : ∀ b ∈ bytes "^0:1$", b ≠ 10 := List.all_iff_forall_prop.1 (by decide)
  have hall : allCommunities.acceptsBytes (bytes "^0:1$") = true := by
    refine (acceptsBytes_allCommunities _).2 ⟨0, 1, by decide, by decide, ?_⟩
    rw [communityChars, colonNumbers, digits_of_lt (by decide), digits_of_lt (by decide)]
    decide
  have hone : one.IsRead .community := by decide
  have htwo : two.IsRead .community := by decide
  have hboth : (one.or two).IsRead .community := by decide
  obtain ⟨a, ha, -, haccepts⟩ := Alternatives.exists_matching hone
  obtain ⟨b, hb, -, -⟩ := Alternatives.exists_matching htwo
  obtain ⟨c, hc, -, hcaccepts⟩ := Alternatives.exists_matching hboth
  refine ⟨a, b, c, ha, hb, hc, ?_, ?_⟩
  · rw [Automaton.accepts, haccepts, Alternatives.found_single_iff hw]
    exact ⟨hall, bytes "^0:", bytes "1", bytes "$", by decide, rfl⟩
  · rw [← Bool.not_eq_true, Automaton.accepts, hcaccepts, Alternatives.found_or_iff hw]
    rintro ⟨-, ⟨x, m, hx, hm⟩ | ⟨p, hp, -⟩ | ⟨m, y, hy, hm⟩⟩
    · obtain rfl : m = bytes "1" := hm
      have hlast := congrArg List.getLast? hx
      rw [List.getLast?_append_of_ne_nil _ (by decide)] at hlast
      exact absurd hlast (by decide)
    · exact absurd hp List.not_mem_nil
    · obtain rfl : m = bytes "2" := hm
      have hhead : (bytes "^0:1$").head? = (bytes "2" ++ y).head? := congrArg List.head? hy
      rw [List.head?_append_of_ne_nil _ (by decide)] at hhead
      exact absurd hhead (by decide)

end RouteSolver
