/-
# Representatives of classes

A class of communities or AS paths is decoded by its least member. Reading that member gives a value
exactly when the delimited text of the value is the least member
(`representatives_eq_ok_iff`, `leastPath_eq_ok_iff`): the marks come off, the numbers are read back,
and a number that is too large for its field is no value at all.
-/

import RouteSolver.Proofs.Automaton.Least
import RouteSolver.Proofs.Domain.Universe
import RouteSolver.Proofs.Lists
import RouteSolver.Witness.Decoding

namespace RouteSolver

open Decimal Delimited Utf8

namespace Delimited

theorem isLeast_ascii_inj {a : Automaton} {cs ds : List Char} (hc : IsAscii cs) (hd : IsAscii ds)
    (h : a.IsLeast (ascii cs)) (h' : a.IsLeast (ascii ds)) : cs = ds :=
  ascii_injective hc hd (h.eq h')

theorem communityChars_injective {m n m' n' : Nat} (h : communityChars m n = communityChars m' n') :
    colonNumbers m n = colonNumbers m' n' :=
  List.append_left_injective _ (List.cons.inj h).2

theorem colonNumbers_injective {m n m' n' : Nat} (h : colonNumbers m n = colonNumbers m' n') :
    m = m' ∧ n = n' := by
  obtain ⟨hm, -, hn⟩ :=
    (List.append_cons_inj_of_notMem (colon_not_mem_digits m) (colon_not_mem_digits n)).1 h
  exact ⟨digits_injective hm, digits_injective hn⟩

/-- A community writes its own numbers. -/
theorem bytes_ofCommunity_eq_iff {c : StandardCommunity} {m n : Nat} :
    bytes (ofCommunity c) = ascii (communityChars m n) ↔ c.high.toNat = m ∧ c.low.toNat = n := by
  rw [bytes_ofCommunity]
  constructor
  · intro h
    exact colonNumbers_injective (communityChars_injective (ascii_injective
      (isAscii_communityChars _ _) (isAscii_communityChars _ _) h))
  · rintro ⟨rfl, rfl⟩
    rfl

theorem asPathChars_injective {ns ms : List Nat} (h : asPathChars ns = asPathChars ms) :
    spacedNumbers ns = spacedNumbers ms :=
  List.append_left_injective _ (List.cons.inj (List.cons.inj h).2).2

end Delimited

namespace Decoding

/-- What is between its marks is all of a text. -/
theorem unmark?_eq_some_iff {start text body : String} :
    unmark? start text = some body ↔ text = start ++ body ++ endMark := by
  rw [← String.toList_inj, String.toList_append, String.toList_append]
  constructor
  · intro h
    obtain ⟨rest, hrest, h⟩ := Option.bind_eq_some_iff.1 h
    obtain ⟨cs, hcs, h⟩ := Option.bind_eq_some_iff.1 h
    obtain rfl := Option.some.inj h
    rw [Text.dropStart?_eq_some_iff.1 hrest, Text.dropEnd?_eq_some_iff.1 hcs,
      String.toList_ofList, List.append_assoc]
  · intro h
    rw [unmark?, h, List.append_assoc, Text.dropStart?_append]
    simp only [Option.bind_eq_bind, Option.bind_some, Text.dropEnd?_append, String.ofList_toList]
    rfl

section
variable {a : Automaton} (ha : a.Valid) (part : DomainPart) (index : Nat)
include ha

/-- **The least member of a class** without its marks. -/
theorem leastBody_of_isLeast {start : String} {body : List Char}
    (hascii : IsAscii (start.toList ++ (body ++ endMark.toList)))
    (h : a.IsLeast (ascii (start.toList ++ (body ++ endMark.toList)))) :
    leastBody a part index start = .ok (String.ofList body) := by
  obtain ⟨w, hw, hleast⟩ := ha.leastBytes_eq_some h.1
  obtain rfl := hleast.eq h
  have hunmark : unmark? start (String.ofList (start.toList ++ (body ++ endMark.toList))) =
      some (String.ofList body) := by
    rw [unmark?_eq_some_iff, String.ofList_append, String.ofList_append, String.ofList_toList,
      String.ofList_toList, String.append_assoc]
  rw [leastBody, Automaton.example?, hw, Option.map_some, decode_ascii hascii]
  simp only [hunmark]

variable (hne : ∃ w, a.acceptsBytes w = true)
include hne

theorem exists_isLeast : ∃ w, a.IsLeast w ∧ a.acceptsBytes w = true := by
  obtain ⟨u, hu⟩ := hne
  obtain ⟨w, -, hw⟩ := ha.leastBytes_eq_some hu
  exact ⟨w, hw, hw.1⟩

/-- **A class of communities** is represented by the community whose text is its least member. -/
theorem read?_leastBody_iff
    (hsub : ∀ w, a.acceptsBytes w = true → allCommunities.acceptsBytes w = true) :
    ∃ body, leastBody a part index communityStart = .ok body ∧ ∀ c,
      Community.read? body = some c ↔
        ∃ s, c = .standard s ∧ a.IsLeast (bytes (ofCommunity s)) := by
  obtain ⟨w, hleast, hw⟩ := exists_isLeast ha hne
  obtain ⟨m, n, -, -, rfl⟩ := (acceptsBytes_allCommunities w).1 (hsub w hw)
  refine ⟨_, leastBody_of_isLeast ha part index (isAscii_communityChars m n) hleast, fun c => ?_⟩
  constructor
  · intro hread
    obtain ⟨s, rfl, hs⟩ := Community.read?_numbers hread
    refine ⟨s, rfl, ?_⟩
    rw [← String.toList_inj, StandardCommunity.toList_text, String.toList_ofList] at hs
    rw [bytes_ofCommunity, communityChars, hs]
    exact hleast
  · rintro ⟨s, rfl, hs⟩
    rw [bytes_ofCommunity] at hs
    have hchars := communityChars_injective (isLeast_ascii_inj (isAscii_communityChars _ _)
      (isAscii_communityChars _ _) hs hleast)
    rw [← hchars, ← StandardCommunity.toList_text, String.ofList_toList]
    exact Community.read?_text (.standard s)

end

/-- The community that the least text of a class writes. -/
def representative (p : Nat × Automaton) : Except DecodeError Community := do
  let body ← leastBody p.2 .community p.1 communityStart
  match Community.read? body with
  | none => .error (.notACommunity body)
  | some c => return c

/-- The classes are represented one after the other. -/
theorem representatives_eq_mapM (ps : List (Nat × Automaton)) :
    representatives ps = ps.mapM representative := by
  induction ps with
  | nil => rfl
  | cons p ps ih =>
    rw [List.mapM_cons, ← ih, representatives, representative]
    cases leastBody p.2 .community p.1 communityStart with
    | error e => rfl
    | ok body =>
      simp only [bind, Except.bind]
      cases Community.read? body <;> rfl

/-- A class is represented by the community whose text is its least member. -/
theorem representative_eq_ok_iff {p : Nat × Automaton} (hvalid : p.2.Valid)
    (hne : ∃ w, p.2.acceptsBytes w = true)
    (hsub : ∀ w, p.2.acceptsBytes w = true → allCommunities.acceptsBytes w = true)
    {c : Community} : representative p = .ok c ↔
      ∃ s, c = .standard s ∧ p.2.IsLeast (bytes (ofCommunity s)) := by
  obtain ⟨body, hbody, hread⟩ := read?_leastBody_iff hvalid .community p.1 hne hsub
  rw [← hread c, representative, hbody]
  simp only [bind, Except.bind]
  cases Community.read? body with
  | none => exact iff_of_false nofun nofun
  | some d =>
    exact ⟨fun h => congrArg some (Except.ok.inj h),
      fun h => congrArg Except.ok (Option.some.inj h)⟩

/-- **The classes that hold** are represented one by one. -/
theorem representatives_eq_ok_iff {ps : List (Nat × Automaton)} (hvalid : ∀ p ∈ ps, p.2.Valid)
    (hne : ∀ p ∈ ps, ∃ w, p.2.acceptsBytes w = true)
    (hsub : ∀ p ∈ ps, ∀ w, p.2.acceptsBytes w = true → allCommunities.acceptsBytes w = true)
    {cs : List Community} : representatives ps = .ok cs ↔ List.Forall₂ (fun p c =>
      ∃ s, c = .standard s ∧ p.2.IsLeast (bytes (ofCommunity s))) ps cs := by
  rw [representatives_eq_mapM, mapM_eq_ok_iff]
  have hclass : ∀ p ∈ ps, ∀ c, representative p = .ok c ↔
      ∃ s, c = .standard s ∧ p.2.IsLeast (bytes (ofCommunity s)) := fun p hp c =>
    representative_eq_ok_iff (hvalid p hp) (hne p hp) (hsub p hp)
  have hmem {q : Nat × Automaton → Community → Prop} (h : List.Forall₂ q ps cs) :
      List.Forall₂ (fun p c => p ∈ ps ∧ q p c) ps cs :=
    (List.forall₂_and_left _ _).2 ⟨fun _ hp => hp, h⟩
  constructor
  · intro h
    exact (hmem h).imp fun p c hc => (hclass p hc.1 c).1 hc.2
  · intro h
    exact (hmem h).imp fun p c hc => (hclass p hc.1 c).2 hc.2

/-! ### AS paths -/

theorem word32?_digits_eq_some_iff {n : Nat} {m : UInt32} :
    word32? (digits n) = some m ↔ m.toNat = n := by
  constructor
  · intro h
    rcases Nat.lt_or_ge 4294967295 n with hn | hn
    · rw [word32?, readUpTo?_digits_of_gt hn] at h
      cases h
    · rw [word32?, readUpTo?_digits hn, Option.map_some, Option.some.injEq] at h
      rw [← h]
      exact UInt32.toNat_ofNat_of_lt' (Nat.lt_succ_of_le hn)
  · rintro rfl
    exact word32?_digits m

/-- Tokens that are numbers are read as AS numbers if all of them are small enough. -/
theorem asNumbers_eq_ok_iff (path : List Char) {ns : List Nat} {ms : List UInt32} :
    asNumbers path (ns.map digits) = .ok ms ↔ ms.map UInt32.toNat = ns := by
  induction ns generalizing ms with
  | nil =>
    rw [List.map_nil, asNumbers, Except.ok.injEq, List.map_eq_nil_iff, eq_comm]
  | cons n ns ih =>
    rw [List.map_cons, asNumbers]
    cases hn : word32? (digits n) with
    | none =>
      refine ⟨nofun, fun h => ?_⟩
      cases ms with
      | nil => exact nomatch h
      | cons m ms =>
        have hm := word32?_digits_eq_some_iff.2 (List.cons.inj h).1
        exact nomatch hn.symm.trans hm
    | some k =>
      have hk := word32?_digits_eq_some_iff.1 hn
      cases hrest : asNumbers path (ns.map digits) with
      | error e =>
        refine ⟨nofun, fun h => ?_⟩
        cases ms with
        | nil => exact nomatch h
        | cons m ms => exact nomatch hrest.symm.trans (ih.2 (List.cons.inj h).2)
      | ok ks =>
        have hks := ih.1 hrest
        simp only [Except.map, Except.ok.injEq]
        constructor
        · rintro rfl
          rw [List.map_cons, hk, hks]
        · intro h
          cases ms with
          | nil => exact nomatch h
          | cons m ms =>
            obtain ⟨hm, hms⟩ := List.cons.inj h
            rw [UInt32.toNat_inj.1 (hk.trans hm.symm),
              List.map_injective_iff.2 (fun _ _ => UInt32.toNat_inj.1) (hks.trans hms.symm)]

/-- The first token that is too large is reported. -/
theorem asNumbers_eq_error (path : List Char) {ns : List Nat} {n : Nat}
    (h : ns.find? (4294967295 < ·) = some n) : asNumbers path (ns.map digits) =
      .error (.notAnAsNumber (Decimal.text n) (String.ofList path)) := by
  induction ns with
  | nil => nomatch h
  | cons k ns ih =>
    rw [List.map_cons, asNumbers]
    by_cases hk : 4294967295 < k
    · rw [List.find?_cons, decide_eq_true hk] at h
      obtain rfl := Option.some.inj h
      rw [word32?, readUpTo?_digits_of_gt hk, ← toList_decimalText, String.ofList_toList]
      rfl
    · rw [List.find?_cons, decide_eq_false hk] at h
      have hread : word32? (digits k) = some (.ofNat k) := word32?_digits_eq_some_iff.2
        (UInt32.toNat_ofNat_of_lt' (Nat.lt_succ_of_le (Nat.not_lt.1 hk)))
      rw [hread, ih h]
      rfl

/-- Numbers with spaces between them are read one by one. -/
theorem readPath_spacedNumbers (ns : List Nat) :
    readPath (String.ofList (spacedNumbers ns)) =
      (asNumbers (spacedNumbers ns) (ns.map digits)).map AsPath.ofNumbers := by
  cases ns with
  | nil => rfl
  | cons n ns =>
    have hempty : (String.ofList (spacedNumbers (n :: ns))).isEmpty = false := by
      rw [String.isEmpty_eq_false_iff, Ne, ← String.toList_inj, String.toList_ofList,
        spacedNumbers]
      exact fun h => digits_ne_nil n (List.append_eq_nil_iff.1 h).1
    have hsplit : Text.split ' ' (spacedNumbers (n :: ns)) = (n :: ns).map digits := by
      have hspace : ∀ k, ' ' ∉ digits k := fun k => not_mem_digits (by decide) k
      have hspaces : ∀ p ∈ ns.map digits, ' ' ∉ p := fun p hp => by
        obtain ⟨k, -, rfl⟩ := List.mem_map.1 hp
        exact hspace k
      have h := Text.split_join (hspace n) hspaces
      rw [List.flatMap_map] at h
      exact h
    rw [readPath, hempty, String.toList_ofList, hsplit]
    rfl

theorem readPath_spacedNumbers_iff {ns : List Nat} {p : AsPath} :
    readPath (String.ofList (spacedNumbers ns)) = .ok p ↔
      ∃ ms : List UInt32, ms.map UInt32.toNat = ns ∧ p = AsPath.ofNumbers ms := by
  rw [readPath_spacedNumbers]
  cases hms : asNumbers (spacedNumbers ns) (ns.map digits) with
  | error e =>
    refine ⟨fun h => ?_, ?_⟩
    · cases h
    · rintro ⟨ms, hns, -⟩
      cases hms.symm.trans ((asNumbers_eq_ok_iff _).2 hns)
  | ok ms =>
    have hns := (asNumbers_eq_ok_iff _).1 hms
    simp only [Except.map, Except.ok.injEq]
    constructor
    · rintro rfl
      exact ⟨ms, hns, rfl⟩
    · rintro ⟨ks, hks, rfl⟩
      rw [List.map_injective_iff.2 (fun _ _ => UInt32.toNat_inj.1) (hns.trans hks.symm)]

/-- **A class of AS paths** is represented by the path whose text is its least member. -/
theorem leastPath_eq_ok_iff {a : Automaton} (ha : a.Valid) (part : DomainPart) (index : Nat)
    (hne : ∃ w, a.acceptsBytes w = true)
    (hsub : ∀ w, a.acceptsBytes w = true → allAsPaths.acceptsBytes w = true) :
    ∃ body, leastBody a part index asPathStart = .ok body ∧ ∀ p,
      readPath body = .ok p ↔
        ∃ ms, p = AsPath.ofNumbers ms ∧ a.IsLeast (bytes (asPathText (AsPath.ofNumbers ms))) := by
  obtain ⟨w, hleast, hw⟩ := exists_isLeast ha hne
  obtain ⟨ns, rfl⟩ := (acceptsBytes_allAsPaths w).1 (hsub w hw)
  refine ⟨_, leastBody_of_isLeast ha part index (isAscii_asPathChars ns) hleast, fun p => ?_⟩
  constructor
  · intro hread
    obtain ⟨ms, rfl, rfl⟩ := readPath_spacedNumbers_iff.1 hread
    exact ⟨ms, rfl, bytes_asPathText ms ▸ hleast⟩
  · rintro ⟨ms, rfl, hms⟩
    rw [bytes_asPathText] at hms
    have hchars := asPathChars_injective (isLeast_ascii_inj (isAscii_asPathChars _)
      (isAscii_asPathChars _) hms hleast)
    rw [← hchars]
    exact readPath_spacedNumbers_iff.2 ⟨ms, rfl, rfl⟩

end Decoding
end RouteSolver
