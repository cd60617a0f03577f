/-
# How decoding an AS path ends

A model selects some of the classes of AS paths, and the decoder takes the least text that is in the
universe of AS paths and in the class that is selected. There are five ways for this to end
(`PathOutcome`), and which one it is depends on the layout, on the classes that are selected and on
the texts of these, in this order. So decoding is exact (`asPath_outcome`), and that is so for any
automata in the domain, for a layout that belongs to another domain and for any diagram as a model.

An outcome is a matter of languages: that there always is one (`exists_pathOutcome`) does not
involve the decoder, and that the decoder arrives at it (`PathOutcome.asPath_eq`) is shown outcome
by outcome. Texts of the universe begin and end with their marks, so a text without marks is never
met.
-/

import RouteSolver.Proofs.Automaton.Constructed
import RouteSolver.Proofs.Encoding.Again
import RouteSolver.Proofs.Witness.Representative
import RouteSolver.Proofs.Witness.Selection

namespace RouteSolver

open Diagram Delimited Utf8

/-! ### Outcomes -/

/-- The string has the property, and no other one that has it comes before. -/
def LeastWith (p : List UInt8 → Prop) (w : List UInt8) : Prop :=
  p w ∧ ∀ u, p u → Automaton.NoLater w u

theorem leastWith_iff {p : List UInt8 → Prop} {a : Automaton}
    (h : ∀ w, p w ↔ a.acceptsBytes w = true) (w : List UInt8) : LeastWith p w ↔ a.IsLeast w :=
  and_congr (h w) (forall_congr' fun u => imp_congr_left (h u))

/-- The text writes an AS path between marks and is in all classes of AS paths with the given
numbers. -/
def Domain.PathsIn (d : Domain) (is : List Nat) (w : List UInt8) : Prop :=
  allAsPaths.acceptsBytes w = true ∧
    ∀ i ∈ is, ∀ a, d.asPaths.parts[i]? = some a → a.acceptsBytes w = true

namespace Decoding

/-- What decoding an AS path comes to if the layout has `count` variables for classes of AS paths
and the model selects the classes `is`. -/
inductive PathOutcome (d : Domain) (count : Nat) (is : List Nat) : Except DecodeError AsPath → Prop
  /-- The domain has a class without a variable. -/
  | missing (h : count < d.asPaths.size) :
    PathOutcome d count is (.error (.mismatch (.missingVariable .asPath count)))
  /-- Several classes are selected; all of them are reported. -/
  | several (h : d.asPaths.size ≤ count) (his : 2 ≤ is.length) :
    PathOutcome d count is (.error (.mismatch (.severalSelected .asPath is)))
  /-- There is no text. -/
  | empty (h : d.asPaths.size ≤ count) (his : is.length ≤ 1) (hnone : ∀ w, ¬d.PathsIn is w) :
    PathOutcome d count is (.error (.mismatch (.emptyPredicate .asPath (is.headD d.asPaths.size))))
  /-- The least text has a number in it that is too large; the first of these is reported. -/
  | tooLarge (h : d.asPaths.size ≤ count) (his : is.length ≤ 1) {ns : List Nat} {n : Nat}
    (hleast : LeastWith (d.PathsIn is) (ascii (asPathChars ns)))
    (hn : ns.find? (4294967295 < ·) = some n) :
    PathOutcome d count is
      (.error (.notAnAsNumber (Decimal.text n) (String.ofList (spacedNumbers ns))))
  /-- The least text is that of the path. -/
  | path (h : d.asPaths.size ≤ count) (his : is.length ≤ 1) {ns : List UInt32}
    (hleast : LeastWith (d.PathsIn is) (bytes (asPathText (.ofNumbers ns)))) :
    PathOutcome d count is (.ok (.ofNumbers ns))

/-- A text without marks is no outcome. -/
theorem PathOutcome.ne_undelimited {d : Domain} {count : Nat} {is : List Nat}
    {r : Except DecodeError AsPath} (h : PathOutcome d count is r) (part : DomainPart)
    (index : Nat) (text : String) : r ≠ .error (.mismatch (.undelimited part index text)) := by
  cases h <;> exact nofun

section
variable {a : Automaton} (ha : a.Valid) (index : Nat)
include ha

/-- A class without texts. -/
theorem leastBody_of_empty (part : DomainPart) (start : String)
    (h : ∀ w, a.acceptsBytes w = false) :
    leastBody a part index start = .error (.mismatch (.emptyPredicate part index)) := by
  have hnone : a.leastBytes = none := by
    rcases ha.leastBytes_spec with ⟨w, -, hw⟩ | ⟨hnone, -⟩
    · exact absurd (hw.1.symm.trans (h w)) (by decide)
    · exact hnone
  rw [leastBody, Automaton.example?, hnone]
  rfl

/-- The least text of a class of AS paths is read without its marks. -/
theorem leastBody_asPathChars {ns : List Nat} (h : a.IsLeast (ascii (asPathChars ns))) :
    leastBody a .asPath index asPathStart = .ok (String.ofList (spacedNumbers ns)) :=
  leastBody_of_isLeast ha .asPath index (isAscii_asPathChars ns) h

end

section
variable {d : Domain} (hd : ∀ a ∈ d.asPaths.parts, a.Valid)
include hd

omit hd in
theorem pathsIn_nil (w : List UInt8) : d.PathsIn [] w ↔ allAsPaths.acceptsBytes w = true :=
  and_iff_left fun _ hi => absurd hi List.not_mem_nil

theorem pathsIn_singleton {i : Nat} {a : Automaton} (ha : d.asPaths.parts[i]? = some a)
    (w : List UInt8) : d.PathsIn [i] w ↔ (allAsPaths.inter a).acceptsBytes w = true := by
  rw [valid_allAsPaths.acceptsBytes_inter (hd a (List.mem_of_getElem? ha)), Bool.and_eq_true]
  refine and_congr_right fun _ => ⟨fun h => h i (List.mem_singleton_self i) a ha, ?_⟩
  intro haw k hk b hb
  obtain rfl := List.mem_singleton.1 hk
  rwa [← Option.some.inj (ha.symm.trans hb)]

/-- The texts of at most one class are a language. -/
theorem exists_language_pathsIn {is : List Nat} (his : is.length ≤ 1)
    (hlt : ∀ i ∈ is, i < d.asPaths.size) :
    ∃ a : Automaton, a.Valid ∧ ∀ w, d.PathsIn is w ↔ a.acceptsBytes w = true := by
  rcases is with _ | ⟨i, _ | ⟨j, is⟩⟩
  · exact ⟨allAsPaths, valid_allAsPaths, pathsIn_nil⟩
  · have ha := List.getElem?_eq_getElem (hlt i (List.mem_singleton_self i))
    exact ⟨_, valid_allAsPaths.inter (hd _ (List.mem_of_getElem? ha)), pathsIn_singleton hd ha⟩
  · rw [List.length_cons, List.length_cons] at his
    omega

/-- **There is an outcome**, whatever the layout is and whatever is selected. -/
theorem exists_pathOutcome (count : Nat) (is : List Nat) (hlt : ∀ i ∈ is, i < d.asPaths.size) :
    ∃ r, PathOutcome d count is r := by
  rcases Nat.lt_or_ge count d.asPaths.size with hmissing | hle
  · exact ⟨_, .missing hmissing⟩
  rcases Nat.lt_or_ge 1 is.length with hmany | hone
  · exact ⟨_, .several hle hmany⟩
  obtain ⟨a, ha, hlang⟩ := exists_language_pathsIn hd hone hlt
  by_cases hne : ∃ w, a.acceptsBytes w = true
  · obtain ⟨w, hleast, hw⟩ := exists_isLeast ha hne
    obtain ⟨ns, rfl⟩ := (acceptsBytes_allAsPaths w).1 ((hlang w).2 hw).1
    have hleast := (leastWith_iff hlang _).2 hleast
    cases hn : ns.find? (4294967295 < ·) with
    | some n => exact ⟨_, .tooLarge hle hone hleast hn⟩
    | none =>
      have hsmall : (ns.map UInt32.ofNat).map UInt32.toNat = ns := by
        rw [List.map_map]
        refine (List.map_congr_left fun n hmem => ?_).trans (List.map_id ns)
        have hle := List.find?_eq_none.1 hn n hmem
        rw [decide_eq_true_iff, Nat.not_lt] at hle
        exact UInt32.toNat_ofNat_of_lt' (Nat.lt_succ_of_le hle)
      rw [← hsmall, ← bytes_asPathText] at hleast
      exact ⟨_, .path hle hone hleast⟩
  · exact ⟨_, .empty hle hone fun w hw => hne ⟨w, (hlang w).1 hw⟩⟩

/-! ### The decoder -/

variable {s : Store} {m : Ref} {l : Layout}

/-- The numbers of the classes of AS paths that the model selects. -/
def selectedPaths (s : Store) (m : Ref) (l : Layout) (d : Domain) : List Nat :=
  (pick 0 d.asPaths.parts (l.asPaths.map (s.entails m))).map (·.1)

omit hd in
theorem mem_selectedPaths {i : Nat} : i ∈ selectedPaths s m l d ↔
    i < d.asPaths.size ∧ ∃ x, l.asPaths[i]? = some x ∧ s.entails m x = true := by
  rw [selectedPaths, List.mem_map]
  constructor
  · rintro ⟨⟨i, a⟩, hmem, rfl⟩
    obtain ⟨ha, hx⟩ := mem_pick_zero.1 hmem
    rw [List.getElem?_map, Option.map_eq_some_iff] at hx
    exact ⟨(List.getElem?_eq_some_iff.1 ha).1, hx⟩
  · rintro ⟨hi, x, hx, hentails⟩
    refine ⟨(i, d.asPaths.parts[i]), mem_pick_zero.2 ⟨List.getElem?_eq_getElem hi, ?_⟩, rfl⟩
    rw [List.getElem?_map, hx, Option.map_some, hentails]

/-- Where at most one class is selected, the least text of a language is read. -/
theorem exists_asPath_eq (hle : d.asPaths.size ≤ l.asPaths.length)
    (hone : (selectedPaths s m l d).length ≤ 1) :
    ∃ a : Automaton, a.Valid ∧
      (∀ w, d.PathsIn (selectedPaths s m l d) w ↔ a.acceptsBytes w = true) ∧
      asPath s m l d = leastBody a .asPath ((selectedPaths s m l d).headD d.asPaths.size)
        asPathStart >>= readPath := by
  have hheld : held s m .asPath d.asPaths.parts l.asPaths =
      .ok (pick 0 d.asPaths.parts (l.asPaths.map (s.entails m))) := heldFrom_eq .asPath 0 hle
  rw [selectedPaths, List.length_map] at hone
  rw [asPath, hheld, selectedPaths]
  rcases hps : pick 0 d.asPaths.parts (l.asPaths.map (s.entails m)) with _ | ⟨⟨i, a⟩, _ | ⟨q, ps⟩⟩
  · exact ⟨allAsPaths, valid_allAsPaths, pathsIn_nil, rfl⟩
  · have hmem : (i, a) ∈ pick 0 d.asPaths.parts (l.asPaths.map (s.entails m)) :=
      hps ▸ List.mem_singleton_self _
    obtain ⟨ha, -⟩ := mem_pick_zero.1 hmem
    exact ⟨allAsPaths.inter a, valid_allAsPaths.inter (hd a (List.mem_of_getElem? ha)),
      pathsIn_singleton hd ha, rfl⟩
  · rw [hps, List.length_cons, List.length_cons] at hone
    omega

/-- **The decoder arrives at the outcome.** -/
theorem PathOutcome.asPath_eq {r : Except DecodeError AsPath}
    (h : PathOutcome d l.asPaths.length (selectedPaths s m l d) r) : asPath s m l d = r := by
  cases h with
  | missing h =>
    have hheld : held s m .asPath d.asPaths.parts l.asPaths =
        .error (.mismatch (.missingVariable .asPath (0 + l.asPaths.length))) :=
      heldFrom_eq_error .asPath 0 h
    rw [asPath, hheld, Nat.zero_add]
    rfl
  | several h his =>
    have hheld : held s m .asPath d.asPaths.parts l.asPaths =
        .ok (pick 0 d.asPaths.parts (l.asPaths.map (s.entails m))) := heldFrom_eq .asPath 0 h
    rw [selectedPaths, List.length_map] at his
    rw [asPath, hheld, selectedPaths]
    match hps : pick 0 d.asPaths.parts (l.asPaths.map (s.entails m)) with
    | [] => rw [hps] at his; exact absurd his (by decide)
    | [p] => rw [hps] at his; exact absurd his (by simp)
    | p :: q :: ps => rfl
  | empty h his hnone =>
    obtain ⟨a, ha, hlang, heq⟩ := exists_asPath_eq hd h his
    rw [heq, leastBody_of_empty ha _ _ _ fun w =>
      Bool.eq_false_iff.2 fun hw => hnone w ((hlang w).2 hw)]
    rfl
  | @tooLarge h his ns n hleast hn =>
    obtain ⟨a, ha, hlang, heq⟩ := exists_asPath_eq hd h his
    rw [heq, leastBody_asPathChars ha _ ((leastWith_iff hlang _).1 hleast)]
    exact (readPath_spacedNumbers ns).trans (by rw [asNumbers_eq_error _ hn]; rfl)
  | @path h his ns hleast =>
    obtain ⟨a, ha, hlang, heq⟩ := exists_asPath_eq hd h his
    rw [leastWith_iff hlang, bytes_asPathText] at hleast
    rw [heq, leastBody_asPathChars ha _ hleast]
    exact readPath_spacedNumbers_iff.2 ⟨ns, rfl, rfl⟩

/-- **Decoding ends** in a result exactly if this is the outcome. -/
theorem asPath_eq_iff {r : Except DecodeError AsPath} : asPath s m l d = r ↔
    PathOutcome d l.asPaths.length (selectedPaths s m l d) r := by
  obtain ⟨r', h⟩ := exists_pathOutcome hd l.asPaths.length (selectedPaths s m l d) fun i hi =>
    (mem_selectedPaths.1 hi).1
  have heq := h.asPath_eq hd
  constructor
  · rintro rfl
    rwa [heq]
  · exact fun h => h.asPath_eq hd

end

/-- **Decoding AS paths is exact.** A route is laid out over some domain and decoded over another
one, whose classes of AS paths may be any valid automata, as all are that can be made. Selected are
the classes of the latter whose variable is true wherever the model is. Then the decoder comes to
the outcome for these classes, and to this only; so it never reports a text without marks. -/
theorem asPath_outcome {d₀ d : Domain} (hd : ∀ a ∈ d.asPaths.parts, a.Valid) {s₀ s₁ s : Store}
    {l : Layout} (hs₀ : s₀.Reachable) (hl : (Layout.ofDomain d₀).run s₀ = (l, s₁))
    (hs : s.Reachable) (hle : s₁ ≤ s) {m : Ref} (hm : s.Has m) :
    ∃ is : List Nat, is.Pairwise (· < ·) ∧
      (∀ i, i ∈ is ↔ i < d.asPaths.size ∧ i < d₀.asPaths.size ∧
        ∀ v, s.eval m v = true → v (d₀.asPathStart + i) = true) ∧
      (∀ r, asPath s m l d = r ↔ PathOutcome d d₀.asPaths.size is r) ∧
      ∀ part index text, asPath s m l d ≠ .error (.mismatch (.undelimited part index text)) := by
  obtain ⟨hs₁, -, hover⟩ := (Layout.yields_ofDomain d₀).of_run hs₀.valid hl
  have hlaid := (hover.mono hs₁ hle).asPaths
  refine ⟨selectedPaths s m l d, pick_ascending 0 _ _, fun i => ?_, fun r => ?_,
    fun part index text => ((asPath_eq_iff hd).1 rfl).ne_undelimited part index text⟩
  · rw [mem_selectedPaths]
    refine and_congr_right fun _ => ?_
    constructor
    · rintro ⟨x, hx, hentails⟩
      exact ⟨hlaid.length_eq ▸ (List.getElem?_eq_some_iff.1 hx).1,
        (hs.valid.entails_iff hm.denotes (hlaid.denotes hx)).1 hentails⟩
    · rintro ⟨hi, hentails⟩
      obtain ⟨x, hx, hdenotes⟩ := hlaid.exists_denotes hi
      exact ⟨x, hx, (hs.valid.entails_iff hm.denotes hdenotes).2 hentails⟩
  · rw [asPath_eq_iff hd, hlaid.length_eq]

/-- A domain with two classes of AS paths. -/
def twoPaths : Domain := ⟨.ofParts [], [], .ofParts [.nothing, .anything], [], [], []⟩

/-- The text of a path with a number that is too large. -/
def largeNumberText : String := String.ofList (asPathChars [7, 4294967296])

/-- A domain with a class of AS paths that has this text alone. -/
def largeNumberOnly : Domain :=
  ⟨.ofParts [], [], .ofParts [.ofText largeNumberText], [], [], []⟩

theorem bytes_largeNumberText : bytes largeNumberText = ascii (asPathChars [7, 4294967296]) := by
  have htext : largeNumberText.toList = asPathChars [7, 4294967296] := String.toList_ofList
  rw [bytes_eq_ascii (htext ▸ isAscii_asPathChars _), htext]

theorem leastWith_largeNumberOnly :
    LeastWith (largeNumberOnly.PathsIn [0]) (ascii (asPathChars [7, 4294967296])) := by
  constructor
  · refine ⟨(acceptsBytes_allAsPaths _).2 ⟨_, rfl⟩, fun i hi a ha => ?_⟩
    obtain rfl := List.mem_singleton.1 hi
    rw [← Option.some.inj ha, ← bytes_largeNumberText]
    exact (Automaton.acceptsBytes_ofBytes _ _).2 rfl
  · intro u hu
    rw [← bytes_largeNumberText]
    exact .inl ((Automaton.acceptsBytes_ofBytes _ _).1
      (hu.2 0 (List.mem_singleton_self 0) _ rfl)).symm

/-- The route has two variables for classes of AS paths and is decoded over a domain with a single
class. The model is the first variable, and so the class is selected; its only text has a number
that is too large, which is reported. -/
theorem asPath_outcome_largeNumber : ∃ l s x, (Layout.ofDomain twoPaths).run .empty = (l, s) ∧
    l.asPaths[0]? = some x ∧ asPath s x l largeNumberOnly =
      .error (.notAnAsNumber (Decimal.text 4294967296)
        (String.ofList (spacedNumbers [7, 4294967296]))) := by
  rcases hl : (Layout.ofDomain twoPaths).run .empty with ⟨l, s⟩
  have hs := Layout.reachable_of_ofDomain .empty hl
  obtain ⟨-, -, hover⟩ := (Layout.yields_ofDomain twoPaths).of_run Store.valid_empty hl
  have hlt : 0 < l.asPaths.length := hover.asPaths.length_eq ▸ Nat.two_pos
  have hx := List.getElem?_eq_getElem hlt
  have hvar := hover.asPaths.denotes hx
  have hvalid : ∀ a ∈ largeNumberOnly.asPaths.parts, a.Valid := fun a ha =>
    List.mem_singleton.1 ha ▸ Automaton.valid_ofBytes _
  obtain ⟨is, hascending, his, hiff, -⟩ :=
    asPath_outcome hvalid .empty hl hs (le_refl s) hvar.has
  have hzero : 0 ∈ is := (his 0).2 ⟨Nat.one_pos, Nat.two_pos, fun v hv => hvar.eval_eq v ▸ hv⟩
  have hall : ∀ i ∈ is, i = 0 := fun i hi => Nat.lt_one_iff.1 ((his i).1 hi).1
  -- the numbers ascend and all of them are zero
  obtain rfl : is = [0] := by
    match is with
    | [] => exact absurd hzero List.not_mem_nil
    | [i] => rw [hall i List.mem_cons_self]
    | i :: j :: _ =>
      have hij := List.rel_of_pairwise_cons hascending (List.mem_cons_self (a := j))
      rw [hall i List.mem_cons_self, hall j (by simp)] at hij
      exact absurd hij (Nat.lt_irrefl 0)
  have hsize : largeNumberOnly.asPaths.size ≤ twoPaths.asPaths.size := Nat.le_succ 1
  exact ⟨l, s, _, rfl, hx, (hiff _).2
    (.tooLarge hsize (by decide) leastWith_largeNumberOnly rfl)⟩

end Decoding
end RouteSolver
