/-
# Reading a pattern from left to right

`Reads st cs out rest` says what the reader does with a part of a pattern: from the state `st` it
takes `cs` up to `rest` and is then in the state `out`, or has failed. Parts that stand one after
the other are read one after the other (`Reads.bind`), so a pattern that was put together from parts
is read by going through the parts again.

Pieces are added to the branch (`pushAll`), a bar begins the next branch (`alternatives`), and a
closing parenthesis makes one piece of them all (`reads_group`). A question mark after a repetition
would only make it lazy, so no part may begin with one (`NotLazy`).
-/

import RouteSolver.Proofs.Text.Decimal
import RouteSolver.Regex.Reader

namespace RouteSolver
namespace Regex

/-! ### Parts of a pattern -/

/-- From `st` the reader takes `cs` up to `rest`, and is then in the state `out` or has failed. -/
def Reads (st : ReaderState) (cs : List Char) (out : Option ReaderState)
    (rest : List Char) : Prop :=
  ∃ k, k + rest.length ≤ cs.length ∧ ∀ n, readFrom (k + n) st cs = out.bind (readFrom n · rest)

/-- Nothing that would make the repetition before it lazy. -/
def NotLazy (cs : List Char) : Prop := cs.head? ≠ some '?'

section
variable {st : ReaderState} {out : Option ReaderState} {c : Char} {cs mid rest : List Char}

theorem NotLazy.dropLazy_eq (h : NotLazy cs) : dropLazy cs = cs := by
  unfold dropLazy
  split
  · exact absurd rfl h
  · rfl

theorem Reads.refl : Reads st cs (some st) cs :=
  ⟨0, Nat.le_of_eq (Nat.zero_add _), fun n => by rw [Nat.zero_add]; rfl⟩

/-- **One part after the other.** -/
theorem Reads.bind {f : ReaderState → Option ReaderState} (h : Reads st cs out mid)
    (hlen : rest.length ≤ mid.length) (h' : ∀ st' ∈ out, Reads st' mid (f st') rest) :
    Reads st cs (out.bind f) rest := by
  obtain ⟨k, hk, hread⟩ := h
  cases out with
  | none => exact ⟨k, by omega, hread⟩
  | some st' =>
    obtain ⟨k', hk', hread'⟩ := h' st' rfl
    refine ⟨k + k', by omega, fun n => ?_⟩
    rw [Nat.add_assoc, hread]
    exact hread' n

theorem Reads.trans {st' : ReaderState} (h : Reads st cs (some st') mid)
    (hlen : rest.length ≤ mid.length) (h' : Reads st' mid out rest) : Reads st cs out rest :=
  h.bind (f := fun _ => out) hlen fun _ hst => Option.some.inj hst ▸ h'

/-- One step of the reader. -/
theorem Reads.step (hst : st.verbose = false) (hlen : rest.length ≤ cs.length)
    (h : readStep st c cs = out.map (·, rest)) : Reads st (c :: cs) out rest := by
  refine ⟨1, by rw [List.length_cons]; omega, fun n => ?_⟩
  rw [Nat.add_comm, readFrom, hst]
  simp only [ahead, Bool.false_eq_true, if_false, h]
  cases out <;> rfl

end

/-! ### Pieces and branches -/

namespace ReaderState

/-- Add some pieces to the current branch. -/
def pushAll (st : ReaderState) (ts : List Tree) : ReaderState :=
  { st with pieces := ts.reverse ++ st.pieces }

/-- Go on with more branches of some pieces each. -/
def alternatives (st : ReaderState) : List (List Tree) → ReaderState
  | [] => st
  | ts :: more => (st.nextBranch.pushAll ts).alternatives more

variable (st : ReaderState) (ts us : List Tree) (more : List (List Tree))

theorem pushAll_append : st.pushAll (ts ++ us) = (st.pushAll ts).pushAll us := by
  rw [pushAll, pushAll, pushAll, List.reverse_append, List.append_assoc]

theorem verbose_alternatives : (st.alternatives more).verbose = st.verbose := by
  induction more generalizing st with
  | nil => rfl
  | cons ts more ih => exact ih _

theorem groups_alternatives : (st.alternatives more).groups = st.groups := by
  induction more generalizing st with
  | nil => rfl
  | cons ts more ih => exact ih _

theorem names_alternatives : (st.alternatives more).names = st.names := by
  induction more generalizing st with
  | nil => rfl
  | cons ts more ih => exact ih _

theorem branches_alternatives : (st.alternatives more).nextBranch.branches =
    (more.map Tree.ofPieces).reverse ++ st.nextBranch.branches := by
  induction more generalizing st with
  | nil => rfl
  | cons ts more ih =>
    have hbranch : (st.nextBranch.pushAll ts).branch = Tree.ofPieces ts := by
      rw [branch, pushAll, nextBranch, List.append_nil, List.reverse_reverse]
    have hstep : (st.nextBranch.pushAll ts).nextBranch.branches =
        Tree.ofPieces ts :: st.nextBranch.branches := congrArg (· :: st.nextBranch.branches) hbranch
    rw [alternatives, ih, hstep, List.map_cons, List.reverse_cons, List.append_assoc]
    rfl

end ReaderState

/-- Some branches; a single branch stands for itself. -/
def Tree.ofBranches : List Tree → Tree
  | [t] => t
  | ts => .alternation ts

theorem Tree.ofBranches_of_length {ts : List Tree} (h : 1 < ts.length) :
    Tree.ofBranches ts = .alternation ts := by
  unfold ofBranches
  split
  · exact absurd h (Nat.lt_irrefl 1)
  · rfl

theorem ReaderState.body_eq (st : ReaderState) :
    st.body = Tree.ofBranches st.nextBranch.branches.reverse := by
  have hbranches : st.nextBranch.branches = st.branch :: st.branches := rfl
  rw [hbranches, List.reverse_cons, body]
  split
  · rename_i heq
    rw [heq]
    rfl
  · rename_i hne
    rw [Tree.ofBranches_of_length]
    have hpos := List.length_pos_iff.2 hne
    rw [List.length_append, List.length_reverse]
    exact Nat.lt_add_of_pos_left hpos

/-! ### Nesting -/

namespace ClassTree

theorem heights_le_iff {ts : List ClassTree} {k : Nat} :
    heights ts ≤ k ↔ ∀ t ∈ ts, t.height ≤ k := by
  induction ts with
  | nil => simp [heights]
  | cons t ts ih => rw [heights, Nat.max_le, ih, List.forall_mem_cons]

theorem height_ofItems_le {ts : List ClassTree} {k : Nat} (h : heights ts ≤ k) :
    (ofItems ts).height ≤ k + 1 := by
  match ts with
  | [] => exact Nat.zero_le _
  | [t] => exact Nat.le_succ_of_le (heights_le_iff.1 h t List.mem_cons_self)
  | t :: u :: ts =>
    have hunion : ofItems (t :: u :: ts) = .union (t :: u :: ts) := rfl
    rw [hunion, height]
    exact Nat.succ_le_succ h

end ClassTree

namespace Tree

section
variable {t : Tree} {ts us : List Tree} {k : Nat}

theorem heights_le_iff : heights ts ≤ k ↔ ∀ t ∈ ts, t.height ≤ k := by
  induction ts with
  | nil => simp [heights]
  | cons t ts ih => rw [heights, Nat.max_le, ih, List.forall_mem_cons]

theorem height_ofPieces_le (h : heights ts ≤ k) : (ofPieces ts).height ≤ k + 1 := by
  match ts with
  | [] => rw [ofPieces, height]; exact Nat.zero_le _
  | [t] => exact Nat.le_succ_of_le (heights_le_iff.1 h t List.mem_cons_self)
  | t :: u :: ts =>
    have hconcat : ofPieces (t :: u :: ts) = .concat (t :: u :: ts) := rfl
    rw [hconcat, height]
    exact Nat.succ_le_succ h

theorem height_ofBranches_le (h : heights ts ≤ k) : (ofBranches ts).height ≤ k + 1 := by
  unfold ofBranches
  split
  · exact Nat.le_succ_of_le (heights_le_iff.1 h _ List.mem_cons_self)
  · rw [height]
    exact Nat.succ_le_succ h

theorem height_branches_le {tss : List (List Tree)} (h : ∀ ts ∈ tss, heights ts ≤ k) :
    (ofBranches (tss.map ofPieces)).height ≤ k + 2 := by
  refine height_ofBranches_le (heights_le_iff.2 fun t ht => ?_)
  obtain ⟨ts, hts, rfl⟩ := List.mem_map.1 ht
  exact height_ofPieces_le (h ts hts)

end
end Tree

/-! ### Marks between pieces -/

section
variable {st : ReaderState} {cs rest : List Char}

theorem reads_bar (hst : st.verbose = false) : Reads st ('|' :: rest) (some st.nextBranch) rest :=
  .step hst (Nat.le_refl _) rfl

theorem reads_open (hst : st.verbose = false) (h : NotLazy rest) :
    Reads st ('(' :: rest) (some (st.openGroup [])) rest := by
  refine .step hst (Nat.le_refl _) ?_
  have hparenthesis : afterParenthesis st rest = some (st.openGroup [], rest) := by
    rw [afterParenthesis, hst]
    simp only [ahead, Bool.false_eq_true, if_false]
    split
    all_goals first | rfl | exact absurd rfl h
  exact hparenthesis

theorem closeGroup_alternatives (ts : List Tree) (more : List (List Tree)) :
    (((st.openGroup []).pushAll ts).alternatives more).closeGroup =
      some (st.push (.group [] (Tree.ofBranches ((ts :: more).map Tree.ofPieces)))) := by
  have hbody : (((st.openGroup []).pushAll ts).alternatives more).body =
      Tree.ofBranches ((ts :: more).map Tree.ofPieces) := by
    have hfirst : ((st.openGroup []).pushAll ts).nextBranch.branches = [Tree.ofPieces ts] := by
      have hpieces : ((st.openGroup []).pushAll ts).pieces = ts.reverse := List.append_nil _
      rw [ReaderState.nextBranch, ReaderState.branch, hpieces, List.reverse_reverse]
      rfl
    rw [ReaderState.body_eq, ReaderState.branches_alternatives, hfirst, List.reverse_append,
      List.reverse_reverse]
    rfl
  rw [ReaderState.closeGroup, ReaderState.groups_alternatives, hbody]
  simp only [ReaderState.names_alternatives]
  rfl

/-- A character outside brackets as a piece of a pattern. -/
abbrev piece (c : Char) : Tree := .literal ⟨c, false⟩

/-- Dot and star, for anything before and after a match. -/
abbrev anyPiece : Tree := .repetition .dot 0 none

theorem reads_anyPiece (hst : st.verbose = false) (h : NotLazy rest) :
    Reads st ('.' :: '*' :: rest) (some (st.push anyPiece)) rest := by
  have hdot : Reads st ('.' :: '*' :: rest) (some (st.push .dot)) ('*' :: rest) :=
    .step hst (Nat.le_refl _) rfl
  refine hdot.trans (Nat.le_succ _) (.step hst (Nat.le_refl _) ?_)
  rw [readStep, h.dropLazy_eq]
  rfl

end

/-! ### Counts -/

section
variable {c : Char} {rest : List Char}

theorem countDigits_append {ds : List Char} (hds : ∀ d ∈ ds, d.isDigit = true)
    (hc : c.isDigit = false) {n : Nat} (hn : ds.length < n) :
    countDigits false n (ds ++ c :: rest) = (ds, c :: rest) := by
  induction ds generalizing n with
  | nil =>
    obtain ⟨n, rfl⟩ := Nat.exists_eq_succ_of_ne_zero (Nat.ne_of_gt hn)
    rw [List.nil_append, countDigits, if_neg (Bool.eq_false_iff.1 hc)]
  | cons d ds ih =>
    obtain ⟨hd, hds⟩ := List.forall_mem_cons.1 hds
    obtain ⟨n, rfl⟩ := Nat.exists_eq_succ_of_ne_zero (Nat.ne_of_gt (Nat.zero_lt_of_lt hn))
    rw [List.cons_append, countDigits, if_pos hd]
    simp only [ahead, Bool.false_eq_true, if_false, ih hds (Nat.lt_of_succ_lt_succ hn)]

theorem isBlank_of_isDigit (h : c.isDigit = true) : isBlank c = false := by
  have := Decimal.isDigit_iff.1 h
  simp only [isBlank, Bool.or_eq_false_iff, Bool.and_eq_false_iff, decide_eq_false_iff_not,
    beq_eq_false_iff_ne]
  omega

/-- A count fits in 32 bits or is refused. -/
theorem count_digits (rest : List Char) (hdigit : c.isDigit = false) (hblank : isBlank c = false)
    (n : Nat) :
    count false (Decimal.digits n ++ c :: rest) =
      if n < 4294967296 then some (some n, c :: rest) else none := by
  have hall : ∀ d ∈ Decimal.digits n, d.isDigit = true := fun d =>
    Decimal.isDigit_of_mem_digits
  have hfront : (Decimal.digits n ++ c :: rest).dropWhile isBlank =
      Decimal.digits n ++ c :: rest := by
    cases hn : Decimal.digits n with
    | nil => exact absurd hn (Decimal.digits_ne_nil n)
    | cons d ds =>
      have hd := isBlank_of_isDigit (hall d (hn ▸ List.mem_cons_self))
      rw [List.cons_append, List.dropWhile_cons_of_neg (Bool.eq_false_iff.1 hd)]
  have hback : (c :: rest).dropWhile isBlank = c :: rest :=
    List.dropWhile_cons_of_neg (Bool.eq_false_iff.1 hblank)
  have hlen : (Decimal.digits n).length < (Decimal.digits n ++ c :: rest).length := by
    rw [List.length_append, List.length_cons]
    omega
  have hne : (Decimal.digits n).isEmpty = false :=
    List.isEmpty_eq_false_iff.2 (Decimal.digits_ne_nil n)
  simp only [count, hfront, countDigits_append hall hdigit hlen, hback, ahead, Bool.false_eq_true,
    if_false, hne, Decimal.value_digits]

/-- **Two counts in braces.** -/
theorem counted_digits {m n : Nat} (hmn : m ≤ n) (hrest : NotLazy rest) :
    counted false (Decimal.digits m ++ ',' :: (Decimal.digits n ++ '}' :: rest)) =
      if n < 4294967296 then some (m, some n, rest) else none := by
  have hfirst := count_digits (Decimal.digits n ++ '}' :: rest) (by decide : ','.isDigit = false)
    (by decide) m
  have hsecond := count_digits rest (by decide : '}'.isDigit = false) (by decide) n
  -- the second count does not begin with the brace that would leave it out
  obtain ⟨d, ds, hds⟩ := List.exists_cons_of_ne_nil (Decimal.digits_ne_nil n)
  have hd : d ≠ '}' := fun h =>
    Decimal.not_mem_digits (by decide : '}'.isDigit = false) n (hds ▸ h ▸ List.mem_cons_self)
  rw [hds, List.cons_append] at hfirst hsecond ⊢
  simp only [counted, ahead, Bool.false_eq_true, if_false, hfirst]
  by_cases hm : m < 4294967296
  · simp only [if_pos hm, Option.bind_eq_bind, Option.bind_some]
    split
    · rename_i heq
      exact absurd (List.cons.inj heq).1 hd
    · rw [hsecond]
      by_cases hn : n < 4294967296
      · simp [if_pos hn, hmn, hrest.dropLazy_eq]
      · simp [if_neg hn]
  · have hn : ¬n < 4294967296 := fun hn => hm (Nat.lt_of_le_of_lt hmn hn)
    rw [if_neg hm, if_neg hn]
    rfl

end

/-! ### Building patterns -/

/-- The text is read as one piece, or refused. -/
def ReadsAtom (cs : List Char) (fits : Bool) (t : Tree) : Prop :=
  ∀ st rest, st.verbose = false → NotLazy (cs ++ rest) ∧
    Reads st (cs ++ rest) (if fits then some (st.push t) else none) rest

/-- The text is read as some pieces, or refused. -/
def ReadsPieces (cs : List Char) (fits : Bool) (ts : List Tree) : Prop :=
  ∀ st rest, st.verbose = false → NotLazy rest → NotLazy (cs ++ rest) ∧
    Reads st (cs ++ rest) (if fits then some (st.pushAll ts) else none) rest

/-- The text is read as more branches of some pieces each, or refused. -/
def ReadsBranches (cs : List Char) (fits : Bool) (tss : List (List Tree)) : Prop :=
  ∀ st rest, st.verbose = false → NotLazy rest → NotLazy (cs ++ rest) ∧
    Reads st (cs ++ rest) (if fits then some (st.alternatives tss) else none) rest

/-- One part after the other, each of which may be refused. -/
theorem Reads.bind_fits {st st' st'' : ReaderState} {a b : Bool} {cs mid rest : List Char}
    (h : Reads st cs (if a then some st' else none) mid) (hlen : rest.length ≤ mid.length)
    (h' : Reads st' mid (if b then some st'' else none) rest) :
    Reads st cs (if a && b then some st'' else none) rest := by
  have hbind := h.bind (f := fun _ => if b then some st'' else none) hlen fun x hx => by
    cases a with
    | false => exact nomatch hx
    | true => exact Option.some.inj hx ▸ h'
  cases a <;> exact hbind

section
variable {cs ds : List Char} {a b : Bool} {t : Tree} {ts us : List Tree} {tss : List (List Tree)}

theorem ReadsAtom.pieces (h : ReadsAtom cs a t) : ReadsPieces cs a [t] :=
  fun st rest hst _ => h st rest hst

theorem ReadsPieces.nil : ReadsPieces [] true [] := fun _ _ _ hrest => ⟨hrest, .refl⟩

theorem ReadsPieces.append (hcs : ReadsPieces cs a ts) (hds : ReadsPieces ds b us) :
    ReadsPieces (cs ++ ds) (a && b) (ts ++ us) := by
  intro st rest hst hrest
  rw [List.append_assoc, ReaderState.pushAll_append]
  obtain ⟨hlazy, hreads⟩ := hds (st.pushAll ts) rest hst hrest
  obtain ⟨hlazy', hreads'⟩ := hcs st (ds ++ rest) hst hlazy
  exact ⟨hlazy', hreads'.bind_fits ((List.suffix_append _ _).length_le) hreads⟩

theorem ReadsBranches.nil : ReadsBranches [] true [] := fun _ _ _ hrest => ⟨hrest, .refl⟩

theorem ReadsBranches.cons (hcs : ReadsPieces cs a ts) (hds : ReadsBranches ds b tss) :
    ReadsBranches ('|' :: (cs ++ ds)) (a && b) (ts :: tss) := by
  intro st rest hst hrest
  rw [List.cons_append, List.append_assoc]
  obtain ⟨hlazy, hreads⟩ := hds (st.nextBranch.pushAll ts) rest hst hrest
  obtain ⟨-, hreads'⟩ := hcs st.nextBranch (ds ++ rest) hst hlazy
  have hlen : rest.length ≤ (ds ++ rest).length := (List.suffix_append _ _).length_le
  have hlen' : (ds ++ rest).length ≤ (cs ++ (ds ++ rest)).length :=
    (List.suffix_append _ _).length_le
  exact ⟨nofun, (reads_bar hst).trans (Nat.le_trans hlen hlen') (hreads'.bind_fits hlen hreads)⟩

/-- **A group** is read as one piece. -/
theorem ReadsPieces.group (hcs : ReadsPieces cs a ts) (hds : ReadsBranches ds b tss) :
    ReadsAtom ('(' :: (cs ++ (ds ++ [')']))) (a && b)
      (.group [] (.ofBranches ((ts :: tss).map .ofPieces))) := by
  intro st rest hst
  refine ⟨nofun, ?_⟩
  rw [List.cons_append, List.append_assoc, List.append_assoc, List.singleton_append]
  obtain ⟨hlazy, hreads⟩ := hds ((st.openGroup []).pushAll ts) (')' :: rest) hst nofun
  obtain ⟨hlazy', hreads'⟩ := hcs (st.openGroup []) (ds ++ ')' :: rest) hst hlazy
  have hverbose : (((st.openGroup []).pushAll ts).alternatives tss).verbose = false :=
    (ReaderState.verbose_alternatives _ _).trans hst
  have hclose : Reads (((st.openGroup []).pushAll ts).alternatives tss) (')' :: rest)
      (if true then some (st.push (.group [] (.ofBranches ((ts :: tss).map .ofPieces)))) else none)
        rest := by
    refine .step hverbose (Nat.le_refl _) ?_
    rw [readStep, closeGroup_alternatives]
    rfl
  have hlen : rest.length ≤ (')' :: rest).length := Nat.le_succ _
  have hlen' : (')' :: rest).length ≤ (ds ++ ')' :: rest).length :=
    (List.suffix_append _ _).length_le
  have hbody := hreads'.bind_fits hlen' hreads
  have hgroup := hbody.bind_fits hlen hclose
  rw [Bool.and_true] at hgroup
  exact (reads_open hst hlazy').trans
    (Nat.le_trans (Nat.le_trans hlen hlen') (List.suffix_append _ _).length_le) hgroup

/-- **A repetition** of one piece. -/
theorem ReadsAtom.repeated {min : Nat} {max : Option Nat} (hcs : ReadsAtom cs a t)
    (ht : ∀ m, t ≠ .modes m)
    (hds : ∀ st rest, st.verbose = false → NotLazy rest → Reads st (ds ++ rest)
      (if b then st.repeatLatest min max else none) rest) :
    ReadsPieces (cs ++ ds) (a && b) [.repetition t min max] := by
  intro st rest hst hrest
  rw [List.append_assoc]
  obtain ⟨hlazy, hreads⟩ := hcs st (ds ++ rest) hst
  refine ⟨hlazy, hreads.bind_fits ((List.suffix_append _ _).length_le) ?_⟩
  have hrepeat : (st.push t).repeatLatest min max =
      some (st.pushAll [.repetition t min max]) := by
    have hpieces : (st.push t).pieces = t :: st.pieces := rfl
    rw [ReaderState.repeatLatest, hpieces]
    split
    · exact nomatch ‹t :: st.pieces = []›
    · exact absurd (List.cons.inj ‹_›).1 (ht _)
    · obtain ⟨rfl, rfl⟩ := List.cons.inj ‹_›
      rfl
  rw [← hrepeat]
  exact hds (st.push t) rest hst hrest

end
/-! ### Whole patterns -/

/-- A part that is all of a pattern. -/
theorem read?_of_reads {cs : List Char} {out : Option ReaderState} (h : Reads .start cs out [])
    (hout : ∀ st ∈ out, st.groups = [] ∧ st.verbose = false) :
    Tree.read? cs = out.bind fun st =>
      if st.body.height ≤ nestingLimit then some st.body else none := by
  obtain ⟨k, hk, hread⟩ := h
  rw [List.length_nil, Nat.add_zero] at hk
  have hlen : cs.length + 1 = k + (cs.length - k + 1) := by omega
  rw [Tree.read?, hlen, hread]
  cases out with
  | none => rfl
  | some st =>
    obtain ⟨hgroups, hverbose⟩ := hout st rfl
    have hend : readFrom (cs.length - k + 1) st [] = some st.body := by
      rw [readFrom, hverbose]
      simp only [ahead, Bool.false_eq_true, if_false, hgroups]
      rfl
    rw [Option.bind_some, Option.bind_some, hend]
    rfl

/-- The branches of a pattern that ends with anything: only the last one does. -/
def openEnded : List Tree → List (List Tree) → List (List Tree)
  | ts, [] => [ts ++ [anyPiece]]
  | ts, us :: more => ts :: openEnded us more

theorem heights_openEnded_le {ts : List Tree} {more : List (List Tree)} {k : Nat} (hk : 0 < k)
    (hts : Tree.heights ts ≤ k) (hmore : ∀ us ∈ more, Tree.heights us ≤ k) :
    ∀ us ∈ openEnded ts more, Tree.heights us ≤ k := by
  induction more generalizing ts with
  | nil =>
    refine List.forall_mem_singleton.2 (Tree.heights_le_iff.2 (List.forall_mem_append.2
      ⟨Tree.heights_le_iff.1 hts, List.forall_mem_singleton.2 hk⟩))
  | cons us more ih =>
    obtain ⟨hus, hmore⟩ := List.forall_mem_cons.1 hmore
    exact List.forall_mem_cons.2 ⟨hts, ih hus hmore⟩

theorem branches_openEnded (st : ReaderState) (more : List (List Tree)) :
    ((st.alternatives more).push anyPiece).nextBranch.branches.reverse =
      st.branches.reverse ++ (openEnded st.pieces.reverse more).map .ofPieces := by
  induction more generalizing st with
  | nil =>
    have hbranches : (st.push anyPiece).nextBranch.branches =
        Tree.ofPieces (anyPiece :: st.pieces).reverse :: st.branches := rfl
    rw [ReaderState.alternatives, hbranches, List.reverse_cons, List.reverse_cons]
    rfl
  | cons ts more ih =>
    have hbranches : (st.nextBranch.pushAll ts).branches = st.branch :: st.branches := rfl
    have hpieces : (st.nextBranch.pushAll ts).pieces.reverse = ts := by
      rw [ReaderState.pushAll, ReaderState.nextBranch, List.append_nil, List.reverse_reverse]
    rw [ReaderState.alternatives, ih, hbranches, hpieces, List.reverse_cons, List.append_assoc]
    rfl

/-- **A search**: alternatives between anything and anything. -/
theorem read?_search {cs ds : List Char} {a b : Bool} {ts : List Tree} {tss : List (List Tree)}
    (hcs : ReadsPieces cs a ts) (hds : ReadsBranches ds b tss) :
    let tree := Tree.ofBranches ((openEnded (anyPiece :: ts) tss).map .ofPieces)
    Tree.read? ('.' :: '*' :: (cs ++ (ds ++ ['.', '*']))) =
      if (a && b) = true ∧ tree.height ≤ nestingLimit then some tree else none := by
  intro tree
  let st := (ReaderState.start.push anyPiece).pushAll ts
  have hverbose : (st.alternatives tss).verbose = false := ReaderState.verbose_alternatives _ _
  have hgroups : (st.alternatives tss).groups = [] := ReaderState.groups_alternatives _ _
  obtain ⟨hlazy, hmore⟩ := hds st ['.', '*'] rfl nofun
  obtain ⟨hlazy', hfirst⟩ := hcs (ReaderState.start.push anyPiece) (ds ++ ['.', '*']) rfl hlazy
  have hend : Reads (st.alternatives tss) ['.', '*']
      (if true then some ((st.alternatives tss).push anyPiece) else none) [] :=
    reads_anyPiece hverbose nofun
  have hbody := (hfirst.bind_fits (List.suffix_append _ _).length_le hmore).bind_fits
    (Nat.zero_le _) hend
  have hreads := (reads_anyPiece rfl hlazy').trans (Nat.zero_le _) hbody
  have htree : ((st.alternatives tss).push anyPiece).body = tree := by
    have hpieces : st.pieces.reverse = anyPiece :: ts := by
      have hst : st.pieces = ts.reverse ++ [anyPiece] := rfl
      rw [hst, List.reverse_append, List.reverse_reverse]
      rfl
    rw [ReaderState.body_eq, branches_openEnded, hpieces]
    rfl
  rw [Bool.and_true] at hreads
  rw [read?_of_reads hreads]
  · cases a && b
    · rfl
    · simp [htree]
  · intro x hx
    split at hx
    · obtain rfl := Option.some.inj hx
      exact ⟨hgroups, hverbose⟩
    · exact nomatch hx

end Regex
end RouteSolver
