/-
# Reading numbers and choices off a cube

A cube entails a variable exactly when its filling has the variable true (`map_entails`), so what is
read off it is what the blocks of that filling write (`valueUnder_eq`, `choiceValueUnder_eq`).

The number that is read off a diagram is never greater than one that the diagram admits
(`valueUnder_le`). A cube admits it, since its open bits may all be false at once, and so it is the
least one there (`Store.Reachable.valueUnder_exact`). Other diagrams may admit none but greater ones
(`Store.valueUnder_oneOfTwo`).

A cube that entails that exactly one alternative of a choice is selected fixes the block of the
choice (`Store.IsCube.exists_selects`): an open variable would be false in one valuation that the
cube admits and true in another one, and not both of them would select one alternative. So it
entails one variable of the block only, and the fallback is never read
(`Store.Reachable.choiceUnder_exact`).
-/

import RouteSolver.Proofs.Diagram.Comparison
import Mathlib.Order.Bounds.Defs

namespace RouteSolver
namespace Diagram

/-! ### Bits of a word -/

namespace Bits

theorem valueLow_le {bs cs : List Bool} (h : List.Forall₂ (fun b c => b = true → c = true) bs cs) :
    valueLow bs ≤ valueLow cs := by
  induction h with
  | nil => exact Nat.le_refl _
  | @cons b c bs cs hbc _ ih =>
    have hbit : b.toNat ≤ c.toNat := by
      cases b with
      | false => exact Nat.zero_le _
      | true => rw [hbc rfl]
    rw [valueLow, valueLow]
    omega

/-- More true bits write a greater number. -/
theorem value_le {bs cs : List Bool} (h : List.Forall₂ (fun b c => b = true → c = true) bs cs) :
    value bs ≤ value cs := by
  rw [value_eq_valueLow, value_eq_valueLow]
  exact valueLow_le (List.forall₂_reverse_iff.2 h)

/-- Bits that are shifted into a word of 64 bits, one after the other. -/
def word (bs : List Bool) : UInt64 := bs.foldl (fun acc b => acc <<< 1 ||| b.toUInt64) 0

/-- The word has room for as many bits: none of them is lost. -/
theorem toNat_word {bs : List Bool} (h : bs.length ≤ 64) : (word bs).toNat = value bs := by
  induction bs using List.reverseRecOn with
  | nil => rfl
  | append_singleton bs b ih =>
    rw [List.length_append, List.length_singleton] at h
    have hlt : 2 * value bs < 2 ^ 64 := by
      have hbs := value_lt bs
      have hpow : 2 ^ (bs.length + 1) ≤ 2 ^ 64 := Nat.pow_le_pow_right (by decide) h
      rw [Nat.pow_succ] at hpow
      omega
    have hstep : word (bs ++ [b]) = word bs <<< 1 ||| b.toUInt64 := by
      rw [word, List.foldl_append]
      rfl
    have hshift : (word bs <<< 1).toNat = 2 * value bs := by
      rw [UInt64.toNat_shiftLeft, ih (by omega), UInt64.toNat_one, Nat.shiftLeft_eq, Nat.mul_comm]
      exact Nat.mod_eq_of_lt hlt
    have hbit : b.toUInt64.toNat = b.toNat := by cases b <;> rfl
    have hadd := Nat.two_pow_add_eq_or_of_lt (i := 1) (Bool.toNat_lt b) (value bs)
    rw [Nat.pow_one] at hadd
    rw [hstep, UInt64.toNat_or, hshift, hbit, value_concat, hadd]

end Bits

/-! ### What is entailed -/

section
variable {s : Store} {m : Ref} {p : Assignment} {xs : List Ref} {first count : Nat}

/-- A property of diagrams that each variable of the block has exactly if it is true of `w`. -/
theorem Store.LaysOut.map_eq_block (hx : s.LaysOut xs first count) {g : Ref → Bool} {w : Valuation}
    (hg : ∀ i y, i < count → s.Denotes y (fun v => v (first + i)) → g y = w (first + i)) :
    xs.map g = block w first count := by
  refine List.ext_getElem (by rw [List.length_map, hx.length_eq, length_block]) ?_
  intro i hi hi'
  rw [List.length_map] at hi
  have hcount : i < count := hx.length_eq ▸ hi
  have hblock := getElem?_block w first hcount
  rw [List.getElem?_eq_getElem hi', Option.some.injEq] at hblock
  rw [List.getElem_map, hblock]
  exact hg i _ hcount (hx.denotes (List.getElem?_eq_getElem hi))

/-- **What a cube entails** is what its filling makes true. -/
theorem map_entails (hs : s.Valid) (hm : s.IsCube m p) (hx : s.LaysOut xs first count) :
    xs.map (s.entails m) = block p.fill first count :=
  hx.map_eq_block fun i y _ hy => by rw [hm.entails_variable hs hy, hy.eval_eq]

/-- The conjunction with a diagram that is built for it. -/
theorem yields_conj_run {f g : Valuation → Bool} {k : Build Ref} (hm : s.Denotes m f)
    (hk : Yields s k fun q t => t.Denotes q g) :
    Yields s (do conj m (← k)) fun r t => t.Denotes r fun v => f v && g v :=
  .of_valid fun hs => hk.bind fun _ _ hst _ hq => yields_conj (hm.mono hs hst) hq

/-! ### Numbers -/

variable {x : BitVector} {f : Valuation → Bool}

theorem valueUnder_eq_value (s : Store) (m : Ref) (x : BitVector) :
    x.valueUnder s m = Bits.value (x.bits.map (s.entails m)) := by
  rw [BitVector.valueUnder, Bits.value, List.foldl_map]

theorem valueUnder_eq (hs : s.Valid) (hm : s.IsCube m p) (hx : s.LaysOut x.bits first count) :
    x.valueUnder s m = Bits.value (block p.fill first count) := by
  rw [valueUnder_eq_value, map_entails hs hm hx]

/-- Whatever the diagram is, the bits that it entails are true in all of its models. -/
theorem valueUnder_le (hs : s.Valid) (hx : s.LaysOut x.bits first count) (hm : s.Denotes m f)
    {v : Valuation} (hv : f v = true) : x.valueUnder s m ≤ Bits.value (block v first count) := by
  rw [valueUnder_eq_value, ← values_consecutive]
  refine Bits.value_le (List.forall₂_map_left_iff.2 (List.forall₂_map_right_iff.2 ?_))
  exact hx.denoteAll.imp fun y g hy hentails => (hs.entails_iff hm hy).1 hentails v hv

/-- A diagram that fixes the block fixes the number that is read off it. -/
theorem valueUnder_eq_of_fixed (hs : s.Valid) (hx : s.LaysOut x.bits first count)
    (hm : s.Denotes m f) {w : Valuation} (hw : f w = true)
    (hfixed : ∀ v, f v = true → block v first count = block w first count) :
    x.valueUnder s m = Bits.value (block w first count) := by
  rw [valueUnder_eq_value]
  refine congrArg Bits.value (hx.map_eq_block fun i y hi hy => ?_)
  rw [Bool.eq_iff_iff, hs.entails_iff hm hy]
  constructor
  · exact fun h => h w hw
  · intro htrue v hv
    rw [eq_of_block_eq (hfixed v hv) (Nat.le_add_right _ _) (by omega)]
    exact htrue

/-! ### Choices -/

variable {α : Type} [DecidableEq α] {alternatives : List α} {c : Choice α} {a : α}

theorem find?_zip_oneHot {as : List α} {g : Ref → Bool} (ha : a ∈ as)
    (h : xs.map g = oneHot as a) :
    ∃ y, (as.zip xs).find? (fun (_, y) => g y) = some (a, y) := by
  induction as generalizing xs with
  | nil => exact absurd ha List.not_mem_nil
  | cons b as ih =>
    cases xs with
    | nil => exact nomatch h
    | cons y xs =>
      rw [oneHot, List.map_cons, List.map_cons, List.cons.injEq] at h
      rw [List.zip_cons_cons, List.find?_cons]
      by_cases hba : b = a
      · subst hba
        rw [decide_eq_true rfl] at h
        exact ⟨y, by simp only [h.1]⟩
      · rw [decide_eq_false hba] at h
        simp only [h.1]
        exact ih ((List.mem_cons.1 ha).resolve_left (Ne.symm hba)) h.2

theorem choiceValueUnder_eq (hs : s.Valid) (hm : s.IsCube m p)
    (hc : s.LaysOut c.selectors first count) (ha : a ∈ c.alternatives)
    (h : block p.fill first count = oneHot c.alternatives a) : c.valueUnder s m = a := by
  obtain ⟨y, hy⟩ := find?_zip_oneHot ha ((map_entails hs hm hc).trans h)
  rw [Choice.valueUnder, hy]

omit [DecidableEq α] in
/-- What is selected depends on what is entailed alone. -/
theorem choiceValueUnder_eq_find (c : Choice α) : c.valueUnder s m =
    (((c.alternatives.zip (c.selectors.map (s.entails m))).find? (·.2)).map (·.1)).getD
      c.fallback := by
  have hentailed : (c.alternatives.zip (c.selectors.map (s.entails m))).find? (·.2) =
      ((c.alternatives.zip c.selectors).find? fun p => s.entails m p.2).map
        (Prod.map id (s.entails m)) := by
    rw [List.zip_map_right, List.find?_map]
    rfl
  rw [hentailed, Choice.valueUnder]
  cases (c.alternatives.zip c.selectors).find? fun p => s.entails m p.2 <;> rfl

theorem apply_of_block_eq_oneHot {v : Valuation}
    (h : block v first alternatives.length = oneHot alternatives a) {i : Nat}
    (hi : i < alternatives.length) : v (first + i) = decide (alternatives[i] = a) := by
  have hblock := getElem?_block v first hi
  rw [h, oneHot, List.getElem?_map, List.getElem?_eq_getElem hi] at hblock
  exact (Option.some.inj hblock).symm

/-- If all blocks that an assignment admits have one true bit, there is only one such block. -/
theorem exists_oneHot_of_admits (hnodup : alternatives.Nodup)
    (hone : ∀ v, p.Admits v → (block v first alternatives.length).count true = 1) :
    ∃ a ∈ alternatives, ∀ v, p.Admits v →
      block v first alternatives.length = oneHot alternatives a := by
  obtain ⟨a, ha, hfill⟩ :=
    exists_eq_oneHot hnodup (length_block ..) (hone p.fill p.admits_fill)
  refine ⟨a, ha, fun v hv => ?_⟩
  obtain ⟨b, -, hblock⟩ := exists_eq_oneHot hnodup (length_block ..) (hone v hv)
  obtain ⟨i, hi, hia⟩ := List.getElem_of_mem ha
  -- the variable of `a` is true in the filling only if it is fixed
  have htrue : p.fill (first + i) = true := by
    rw [apply_of_block_eq_oneHot hfill hi]
    exact decide_eq_true hia
  have hvi : v (first + i) = true := hv _ _ (Assignment.eq_some_of_fill htrue)
  rw [apply_of_block_eq_oneHot hblock hi, decide_eq_true_iff] at hvi
  rw [hblock, ← hia, hvi]

/-- **A choice is equal to a value** if that is one of the alternatives, and selected alone. -/
theorem yields_choiceEq_block (hc : s.LaysOut c.selectors first c.alternatives.length)
    (hnodup : c.alternatives.Nodup) (a : α) :
    Yields s (c.eq a) fun q t => t.Denotes q fun v => decide (a ∈ c.alternatives ∧
      block v first c.alternatives.length = oneHot c.alternatives a) := by
  by_cases ha : a ∈ c.alternatives
  · refine (yields_choiceEq hc.denoteAll (length_consecutive ..) hnodup ha).mono
      fun q t _ _ hq => hq.congr fun v => ?_
    rw [values_consecutive, decide_eq_decide, and_iff_right ha]
  · rw [Choice.eq, List.idxOf?_eq_none_iff.2 ha]
    refine .pure fun hs => hs.denotes_bot.congr fun v => ?_
    rw [decide_eq_false fun h => ha h.1]

end

namespace Store

variable {s t u : Store} {m : Ref} {p : Assignment} {x : BitVector} {first width : Nat}

/-- **A number is read back exactly off a cube**, which may fix any bits of the vector and any other
variables. It is the least number that the cube admits, and a word of 64 bits has room for it; so
the cube may still be given that value. What is given a value, if that leaves it satisfiable, reads
as the value. -/
theorem Reachable.valueUnder_exact (hs : s.Reachable)
    (hx : (BitVector.layOut? first width).map (·.run s) = .ok (x, t)) (htu : t ≤ u)
    (hu : u.Reachable) (hm : u.IsCube m p) :
    IsLeast {n | ∃ v, u.eval m v = true ∧ Bits.value (block v first width) = n}
        (x.valueUnder u m) ∧
      (Bits.word (x.bits.map (u.entails m))).toNat = x.valueUnder u m ∧
      ((do conj m (← x.eq (x.valueUnder u m))).run u).1.isSatisfiable = true ∧
      ∀ n c z, (do conj m (← x.eq n)).run u = (c, z) → c.isSatisfiable = true →
        x.valueUnder z c = n := by
  obtain ⟨hwidth, ht, hlaid⟩ := hs.of_layOut? hx
  have hxu : u.LaysOut x.bits first width := hlaid.mono ht.valid htu
  have hread := valueUnder_eq hu.valid hm hxu
  have hfill : u.eval m p.fill = true := (hm.eval_iff _).2 p.admits_fill
  have hconj := fun n => yields_conj_run hm.has.denotes (yields_eq hxu.denoteAll n) hu.valid
  refine ⟨⟨⟨p.fill, hfill, hread.symm⟩, ?least⟩, ?word, ?admitted, ?given⟩
  case least =>
    rintro _ ⟨v, hv, rfl⟩
    exact valueUnder_le hu.valid hxu hm.has.denotes hv
  case word =>
    rw [Bits.toNat_word, valueUnder_eq_value]
    rw [List.length_map, hxu.length_eq]
    exact hwidth
  case admitted =>
    obtain ⟨hvalid, -, hc⟩ := hconj (x.valueUnder u m)
    refine (hc.isSatisfiable_iff hvalid).2 ⟨p.fill, ?_⟩
    rw [hfill, value_consecutive, ← hread, decide_eq_true rfl]
    rfl
  case given =>
    intro n c z hrun hsat
    obtain ⟨hz, huz, hc⟩ := hconj n
    rw [show (do conj m (← x.eq n) : Build Ref) u = (c, z) from hrun] at hz huz hc
    simp only [value_consecutive] at hc
    obtain ⟨w, hw⟩ := (hc.isSatisfiable_iff hz).1 hsat
    have hvalue : ∀ v, (u.eval m v && decide (Bits.value (block v first width) = n)) = true →
        Bits.value (block v first width) = n := fun v hv =>
      of_decide_eq_true (Bool.and_eq_true_iff.1 hv).2
    rw [valueUnder_eq_of_fixed hz (hxu.mono hu.valid huz) hc hw fun v hv => ?_, hvalue w hw]
    -- the value leaves no bit open
    refine Bits.value_injective ?_ ((hvalue v hv).trans (hvalue w hw).symm)
    rw [length_block, length_block]

/-- Three bits from variable 2 on, of which the first is fixed, and variable 0 as well: the number
is 4, and 6 once that is asked for. -/
theorem valueUnder_exact_topBit :
    ∃ x t m u, (BitVector.layOut? 2 3).map (·.run .empty) = .ok (x, t) ∧ t ≤ u ∧ u.Reachable ∧
      u.IsCube m (assignmentOf [(0, false), (2, true)]) ∧ x.valueUnder u m = 4 ∧
      ∃ c z, (do conj m (← x.eq 6)).run u = (c, z) ∧ c.isSatisfiable = true ∧
        x.valueUnder z c = 6 := by
  have hwidth : 3 ≤ BitVector.maxWidth := by decide
  obtain ⟨x, t, hlaid, ht, hx⟩ := Reachable.empty.exists_layOut? 2 hwidth
  have hleads : Leads t (do conj (← negative 0) (← positive 2)) fun m u => u.Has m :=
    (leads_run (.negative 0) (hasAll_nil _)).bind fun _ _ _ hclear =>
      (leads_run (.positive 2) (hasAll_nil _)).bind fun _ _ hst hset =>
        leads_conj (hclear.mono hst) hset
  have hyields : Yields t (do conj (← negative 0) (← positive 2)) fun m u =>
      u.Denotes m fun v => !v 0 && v 2 :=
    (yields_negative 0).bind fun _ _ _ ht hclear => (yields_positive 2).bind fun _ _ htu _ hset =>
      yields_conj (hclear.1.mono ht htu) hset.1
  obtain ⟨hu, htu, -⟩ := hleads ht
  obtain ⟨-, -, hden⟩ := hyields ht.valid
  generalize (do conj (← negative 0) (← positive 2) : Build Ref) t = cube at hu htu hden
  obtain ⟨m, u⟩ := cube
  have hm : u.IsCube m (assignmentOf [(0, false), (2, true)]) :=
    (hden.congr fun v => by simp).isCube (by simp [Ascending])
  have hxu : u.LaysOut x.bits 2 3 := hx.mono ht.valid htu
  obtain ⟨hvalid, -, hsix⟩ := yields_conj_run hden (yields_eq hxu.denoteAll 6) hu.valid
  have hsat := (hsix.isSatisfiable_iff hvalid).2 ⟨fun i => i == 2 || i == 3, by decide⟩
  obtain ⟨-, -, -, hgiven⟩ := Reachable.empty.valueUnder_exact hlaid htu hu hm
  exact ⟨x, t, m, u, hlaid, htu, hu, hm, valueUnder_eq hu.valid hm hxu, _, _, rfl, hsat,
    hgiven 6 _ _ rfl hsat⟩

/-- What is not a cube may read as a number that it does not admit: "one of two variables" forces
neither of them, and they are not both false. -/
theorem valueUnder_oneOfTwo (hs : s.Valid) (hx : s.LaysOut x.bits first 2)
    (hm : s.Denotes m fun v => v first || v (first + 1)) :
    x.valueUnder s m = 0 ∧ ∀ v, s.eval m v = true → Bits.value (block v first 2) ≠ 0 := by
  constructor
  · rw [valueUnder_eq_value, hx.map_eq_block (w := fun _ => false) fun i y hi hy => ?_]
    · rfl
    · -- the other variable may be the one
      rw [Bool.eq_false_iff]
      intro hentails
      have hother : (first != first + i || first + 1 != first + i) = true := by
        rw [Bool.or_eq_true, bne_iff_ne, bne_iff_ne]
        omega
      have hself : (first + i != first + i) = true :=
        (hs.entails_iff hm hy).1 hentails (fun j => j != first + i) hother
      exact bne_iff_ne.1 hself rfl
  · intro v hv hzero
    have hfalse : block v first 2 = block (fun _ => false) first 2 :=
      Bits.value_injective rfl hzero
    rw [hm.eval_eq, eq_of_block_eq hfalse (i := first) (by omega) (by omega),
      eq_of_block_eq hfalse (i := first + 1) (by omega) (by omega)] at hv
    exact Bool.noConfusion hv

/-! ### A choice under a cube -/

section
variable {α : Type} [DecidableEq α] {alternatives : List α} {fallback a b : α} {c : Choice α}
  {q : Ref} {y z : Store}

/-- The cube fixes the block of the choice to one of the alternatives, which are different. -/
structure Selects (s : Store) (m : Ref) (p : Assignment) (c : Choice α) (first : Nat) (a : α) :
    Prop where
  isCube : s.IsCube m p
  laysOut : s.LaysOut c.selectors first c.alternatives.length
  nodup : c.alternatives.Nodup
  mem : a ∈ c.alternatives
  fixed : ∀ v, p.Admits v → block v first c.alternatives.length = oneHot c.alternatives a

namespace Selects

/-- **No variable of the block is open.** -/
theorem eq_some (h : s.Selects m p c first a) {i : Nat} (hi : i < c.alternatives.length) :
    p (first + i) = some (decide (c.alternatives[i] = a)) :=
  Assignment.eq_some_of_admits fun v hv => apply_of_block_eq_oneHot (h.fixed v hv) hi

theorem valueUnder_eq (h : s.Selects m p c first a) (hs : s.Valid) : c.valueUnder s m = a :=
  choiceValueUnder_eq hs h.isCube h.laysOut h.mem (h.fixed _ p.admits_fill)

/-- Another fallback changes nothing of what is selected. -/
theorem withFallback (h : s.Selects m p c first a) (b : α) :
    s.Selects m p { c with fallback := b } first a :=
  ⟨h.isCube, h.laysOut, h.nodup, h.mem, h.fixed⟩

theorem oneHot_eq_iff (h : s.Selects m p c first a) {v : Valuation} (hv : p.Admits v) :
    (b ∈ c.alternatives ∧ block v first c.alternatives.length = oneHot c.alternatives b) ↔
      b = a := by
  rw [h.fixed v hv, eq_comm, oneHot_inj h.mem]
  exact and_iff_right_of_imp fun hba => hba ▸ h.mem

/-- **One value is entailed**, the one that is selected. -/
theorem entails_eq_iff (h : s.Selects m p c first a) (hs : s.Valid) (b : α) :
    ((c.eq b).run s).2.entails m ((c.eq b).run s).1 = true ↔ b = a := by
  obtain ⟨ht, hst, hden⟩ := yields_choiceEq_block h.laysOut h.nodup b hs
  refine ((h.isCube.mono hs hst).entails_iff ht hden).trans ⟨fun hall => ?_, fun hb v hv => ?_⟩
  · exact (h.oneHot_eq_iff p.admits_fill).1 (of_decide_eq_true (hall _ p.admits_fill))
  · exact decide_eq_true ((h.oneHot_eq_iff hv).2 hb)

/-- All other values are contradicted. -/
theorem conj_eq_bot (h : s.Selects m p c first a) (hs : s.Valid) (hb : b ≠ a) :
    ((do conj m (← c.eq b)).run s).1 = .bot := by
  obtain ⟨ht, -, hden⟩ := yields_conj_run h.isCube.has.denotes
    (yields_choiceEq_block h.laysOut h.nodup b) hs
  by_contra hne
  obtain ⟨v, hv⟩ := (hden.isSatisfiable_iff ht).1 (decide_eq_true hne)
  rw [Bool.and_eq_true, h.isCube.eval_iff, decide_eq_true_iff] at hv
  exact hb ((h.oneHot_eq_iff hv.1).1 hv.2)

end Selects

/-- **A cube that entails "exactly one" selects one**, and always the same. -/
theorem IsCube.exists_selects (hm : s.IsCube m p) (hs : s.Valid)
    (hc : s.LaysOut c.selectors first c.alternatives.length) (hnodup : c.alternatives.Nodup)
    (hq : s.Denotes q fun v => decide ((block v first c.alternatives.length).count true = 1))
    (hentails : s.entails m q = true) : ∃ a, s.Selects m p c first a := by
  obtain ⟨a, ha, hfixed⟩ := exists_oneHot_of_admits hnodup fun v hv =>
    of_decide_eq_true ((hm.entails_iff hs hq).1 hentails v hv)
  exact ⟨a, hm, hc, hnodup, ha, hfixed⟩

/-- What has been laid out is there in the reachable store that follows. -/
theorem Reachable.of_choiceLayOut (hs : s.Reachable)
    (hc : (Choice.layOut first alternatives fallback).run s = (c, t)) :
    t.Reachable ∧ t.LaysOut c.selectors first c.alternatives.length ∧
      c.alternatives = alternatives := by
  have ht := Reaches.choiceLayOut first alternatives fallback s hs
  rw [hc] at ht
  obtain ⟨-, -, hlaid, halternatives⟩ :=
    yields_choiceLayOut first alternatives fallback hs.valid
  rw [show Choice.layOut first alternatives fallback s = (c, t) from hc] at hlaid halternatives
  exact ⟨ht, halternatives ▸ hlaid, halternatives⟩

/-- **What is encoded is read back.** Different alternatives are laid out over any variables. Off a
cube, partial or complete, that entails that exactly one of them is selected, that one is read: the
cube fixes all variables of the alternatives; it entails one value and contradicts all others; and
the one is what is read, whatever the fallback is. -/
theorem Reachable.choiceUnder_exact (hs : s.Reachable) (hnodup : alternatives.Nodup)
    (hc : (Choice.layOut first alternatives fallback).run s = (c, t)) (htu : t ≤ u)
    (hu : u.Reachable) (hq : c.exactlyOne.run u = (q, y)) (hyz : y ≤ z) (hz : z.Reachable)
    (hm : z.IsCube m p) (hentails : z.entails m q = true) :
    ∃ a ∈ alternatives,
      (∀ i (h : i < alternatives.length), p (first + i) = some (decide (alternatives[i] = a))) ∧
      (∀ b, ((c.eq b).run z).2.entails m ((c.eq b).run z).1 = true ↔ b = a) ∧
      (∀ b, b ≠ a → ((do conj m (← c.eq b)).run z).1 = .bot) ∧
      c.valueUnder z m = a ∧ ∀ d, { c with fallback := d }.valueUnder z m = a := by
  obtain ⟨ht, hlaid, rfl⟩ := hs.of_choiceLayOut hc
  have hcu := hlaid.mono ht.valid htu
  obtain ⟨hy, huy, hone⟩ := yields_exactlyOne hcu.denoteAll hu.valid
  rw [show exactlyOne c.selectors u = (q, y) from hq] at hy huy hone
  have hcz := (hcu.mono hu.valid huy).mono hy hyz
  have hexactly : z.Denotes q fun v =>
      decide ((block v first c.alternatives.length).count true = 1) :=
    (hone.mono hy hyz).congr fun v => by rw [values_consecutive]
  obtain ⟨a, hselects⟩ := hm.exists_selects hz.valid hcz hnodup hexactly hentails
  exact ⟨a, hselects.mem, fun i hi => hselects.eq_some hi, hselects.entails_eq_iff hz.valid,
    fun b hb => hselects.conj_eq_bot hz.valid hb, hselects.valueUnder_eq hz.valid,
    fun d => (hselects.withFallback d).valueUnder_eq hz.valid⟩

/-- Three alternatives from variable 5 on. "The second one" is a cube that leaves all other
variables open, and it reads as the second one, though the first one is the fallback. -/
theorem choiceUnder_exact_second :
    ∃ c t q y m z, (Choice.layOut 5 [10, 20, 30] 10).run .empty = (c, t) ∧
      c.exactlyOne.run t = (q, y) ∧ (c.eq 20).run y = (m, z) ∧ z.Reachable ∧
      z.IsCube m (assignmentOf [(5, false), (6, true), (7, false)]) ∧ z.entails m q = true ∧
      c.valueUnder z m = 20 := by
  obtain ⟨⟨c, t⟩, hc⟩ : ∃ laid, (Choice.layOut 5 [10, 20, 30] 10).run .empty = laid := ⟨_, rfl⟩
  obtain ⟨ht, hlaid, halternatives⟩ := Reachable.empty.of_choiceLayOut hc
  have hlength : c.alternatives.length = 3 := congrArg List.length halternatives
  have hnodup : c.alternatives.Nodup := by
    rw [halternatives]
    decide
  obtain ⟨⟨q, y⟩, hq⟩ : ∃ one, c.exactlyOne.run t = one := ⟨_, rfl⟩
  obtain ⟨hy, hty, -⟩ := leads_exactlyOne hlaid.hasAll ht
  obtain ⟨-, -, hone⟩ := yields_exactlyOne hlaid.denoteAll ht.valid
  rw [show exactlyOne c.selectors t = (q, y) from hq] at hy hty hone
  have hcy := hlaid.mono ht.valid hty
  obtain ⟨⟨m, z⟩, hm⟩ : ∃ second, (c.eq 20).run y = second := ⟨_, rfl⟩
  obtain ⟨hz, hyz, -⟩ := leads_choiceEq hcy.hasAll 20 hy
  obtain ⟨-, -, hsecond⟩ := yields_choiceEq_block hcy hnodup 20 hy.valid
  rw [show c.eq 20 y = (m, z) from hm] at hz hyz hsecond
  have hcube : z.IsCube m (assignmentOf [(5, false), (6, true), (7, false)]) := by
    refine (hsecond.congr fun v => ?_).isCube (by simp [Ascending])
    rw [hlength, halternatives, show block v 5 3 = [v 5, v 6, v 7] from rfl]
    simp [oneHot]
  have hentails : z.entails m q = true := by
    rw [hz.valid.entails_iff hsecond (hone.mono hy.valid hyz)]
    intro v hv
    obtain ⟨hmem, hblock⟩ := of_decide_eq_true hv
    rw [decide_eq_true_iff, values_consecutive, hblock]
    exact count_oneHot_eq_one hnodup hmem
  obtain ⟨a, -, hfixed, -, -, hread, -⟩ :=
    Reachable.empty.choiceUnder_exact (by decide) hc le_rfl ht hq hyz hz hcube hentails
  have ha : decide (20 = a) = true := (Option.some.inj (hfixed 1 (by decide))).symm
  exact ⟨c, t, q, y, m, z, hc, hq, hm, hz, hcube, hentails, by rw [hread, of_decide_eq_true ha]⟩

end

end Store
end Diagram
end RouteSolver
