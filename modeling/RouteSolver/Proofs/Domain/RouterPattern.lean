/-
# Router patterns and what they match

The syntax of router patterns, apart from escapes: characters that stand for themselves, anchors,
delimiters, dots, classes of digits, groups of alternatives, repetitions. A pattern is written as
usual, with a group around what is repeated unless it is a single symbol or a group anyway
(`RouterPattern.text`). What it matches is said by recursion on the syntax, over the bytes of
delimited texts (`RouterPattern.Matches`); of the start mark it only has to know what it looks like.

Spelling a pattern out changes its symbols and nothing else (`expands_spell`).
-/

import RouteSolver.Domain.Delimited
import RouteSolver.Proofs.Regex.Language
import RouteSolver.Proofs.Text.Ascii
import RouteSolver.Proofs.Text.Decimal
import Mathlib.Data.Bool.AllAny
import Mathlib.Data.List.Basic

namespace RouteSolver

open Decimal Delimited Regex Utf8

/-! ### Syntax -/

/-- A character without a meaning of its own. -/
abbrev IsOrdinary (c : Char) : Prop :=
  c ∉ ['\\', '[', '^', '$', '_', '.', '(', ')', '|', '?', '*', '+', '\x7b']

/-- A member of a class. -/
inductive ClassMember where
  | digit (d : Fin 10)
  | range (lo hi : Fin 10) (h : lo ≤ hi)

/-- What may be repeated without a group around it. -/
inductive Symbol where
  /-- A character that stands for itself. -/
  | char (c : Char) (h : IsOrdinary c)
  /-- The end mark. -/
  | endMark
  /-- A mark or a space. -/
  | delimiter
  /-- Any byte but those of the marks. -/
  | dot
  /-- One of the members, or any byte but them and those of the marks. -/
  | bracket (negated : Bool) (first : ClassMember) (more : List ClassMember)

/-- How often something is repeated. -/
inductive Times where
  | any
  | atLeastOnce
  | atMostOnce
  /-- At least `min` times, and at most `more` times more. -/
  | between (min more : Nat)

/-- A router pattern without an alternative at its top level. -/
inductive RouterPattern where
  | nothing
  | startMark
  | symbol (s : Symbol)
  | cat (p q : RouterPattern)
  /-- Alternatives in parentheses. -/
  | group (first : RouterPattern) (more : List RouterPattern)
  | repeated (body : RouterPattern) (times : Times)

/-! ### Text -/

/-- The digit of a number below ten. -/
def digitOf (d : Fin 10) : Char := digitChar d.val

/-- A member as it is written. -/
def ClassMember.chars : ClassMember → List Char
  | digit d => [digitOf d]
  | range lo hi _ => [digitOf lo, '-', digitOf hi]

namespace Symbol

/-- A symbol as it is written. -/
def chars : Symbol → List Char
  | char c _ => [c]
  | endMark => ['$']
  | delimiter => ['_']
  | dot => ['.']
  | bracket negated first more =>
    '[' :: ((if negated then ['^'] else []) ++ ((first :: more).flatMap ClassMember.chars ++ [']']))

/-- A class that excludes the marks if it is negated. -/
def expandedBracket (negated : Bool) (members : List ClassMember) : List Char :=
  '[' :: ((if negated then ['^'] else []) ++ (members.flatMap ClassMember.chars ++
    ((if negated then ['\\', '^', '\\', '$'] else []) ++ [']'])))

/-- A symbol spelled out. -/
def expanded (delimiterChars : List Char) : Symbol → List Char
  | char c _ => [c]
  | endMark => ['\\', '$']
  | delimiter => delimiterChars
  | dot => expandedBracket true []
  | bracket negated first more => expandedBracket negated (first :: more)

end Symbol

namespace Times

/-- A number of times as it is written. -/
def chars : Times → List Char
  | any => ['*']
  | atLeastOnce => ['+']
  | atMostOnce => ['?']
  | between min more => '\x7b' :: (digits min ++ ',' :: (digits (min + more) ++ ['}']))

/-- The least number of times. -/
def min : Times → Nat
  | any => 0
  | atLeastOnce => 1
  | atMostOnce => 0
  | between min _ => min

/-- The greatest number of times, if there is one. -/
def max : Times → Option Nat
  | any => none
  | atLeastOnce => none
  | atMostOnce => some 1
  | between min more => some (min + more)

/-- The numbers of times that are allowed. -/
def Allows (t : Times) (n : Nat) : Prop := t.min ≤ n ∧ ∀ m ∈ t.max, n ≤ m

theorem min_le (t : Times) : ∀ m ∈ t.max, t.min ≤ m := by
  cases t with
  | any => nofun
  | atLeastOnce => nofun
  | atMostOnce => exact fun m hm => Option.some.inj hm ▸ Nat.zero_le 1
  | between min more => exact fun m hm => Option.some.inj hm ▸ Nat.le_add_right min more

end Times

/-- How the start mark and the symbols are written. -/
structure Spelling where
  start : List Char
  symbol : Symbol → List Char

namespace RouterPattern

/-- A single symbol or a group, which can be repeated as it is. -/
def isAtom : RouterPattern → Bool
  | symbol _ => true
  | group _ _ => true
  | _ => false

mutual
/-- A pattern in some spelling. -/
def spell (s : Spelling) : RouterPattern → List Char
  | nothing => []
  | startMark => s.start
  | symbol x => s.symbol x
  | cat p q => p.spell s ++ q.spell s
  | group first more => '(' :: (first.spell s ++ (spellMore s more ++ [')']))
  | repeated body times =>
    (if body.isAtom then body.spell s else '(' :: (body.spell s ++ [')'])) ++ times.chars

/-- More alternatives, each after a bar. -/
def spellMore (s : Spelling) : List RouterPattern → List Char
  | [] => []
  | p :: ps => '|' :: (p.spell s ++ spellMore s ps)
end

end RouterPattern

/-- Router patterns as they are written. -/
def Spelling.router : Spelling := ⟨['^'], Symbol.chars⟩

/-- Router patterns spelled out. -/
def Spelling.expanded (start delimiter : List Char) : Spelling := ⟨start, Symbol.expanded delimiter⟩

/-- The text of a pattern. -/
def RouterPattern.text (p : RouterPattern) : String := String.ofList (p.spell .router)

/-! ### Meaning -/

/-- The bytes that are members. -/
def ClassMember.Contains : ClassMember → UInt8 → Prop
  | digit d, b => b = byteOf (digitOf d)
  | range lo hi _, b => byteOf (digitOf lo) ≤ b ∧ b ≤ byteOf (digitOf hi)

/-- A byte of a mark. -/
def IsMark (b : UInt8) : Prop := b = byteOf '^' ∨ b = byteOf '$'

/-- What a symbol matches. -/
def Symbol.Matches (start : List UInt8) : Symbol → List UInt8 → Prop
  | char c _, w => w = String.utf8EncodeChar c
  | endMark, w => w = bytes Delimited.endMark
  | delimiter, w => w = start ∨ w = bytes Delimited.endMark ∨ w = bytes " "
  | dot, w => ∃ b, w = [b] ∧ ¬IsMark b
  | bracket false first more, w => ∃ b, w = [b] ∧ ∃ m ∈ first :: more, m.Contains b
  | bracket true first more, w =>
    ∃ b, w = [b] ∧ (∀ m ∈ first :: more, ¬m.Contains b) ∧ ¬IsMark b

namespace RouterPattern

mutual
/-- What a pattern matches, if the start mark has the given bytes. -/
def Matches (start : List UInt8) : RouterPattern → List UInt8 → Prop
  | nothing, w => w = []
  | startMark, w => w = start
  | symbol s, w => s.Matches start w
  | cat p q, w => ∃ u v, w = u ++ v ∧ p.Matches start u ∧ q.Matches start v
  | group first more, w => first.Matches start w ∨ SomeMatches start more w
  | repeated body times, w => Expr.Repeats (body.Matches start) times.Allows w

/-- What one of some patterns matches. -/
def SomeMatches (start : List UInt8) : List RouterPattern → List UInt8 → Prop
  | [], _ => False
  | p :: ps, w => p.Matches start w ∨ SomeMatches start ps w
end

end RouterPattern

/-! ### Spelling a pattern out -/

namespace Delimited

section
variable {start delimiter : List Char}

theorem expandFrom_cons {c : Char} (h : c ≠ '\\') (cs : List Char) (place : Place) :
    expandFrom start delimiter place (c :: cs) = (expandChar start delimiter place c).1 ++
      expandFrom start delimiter (expandChar start delimiter place c).2 cs := by
  rw [expandFrom]
  · exact fun _ _ hc _ => h hc
  · exact fun hc => absurd hc h

/-- Outside brackets, `cs` becomes `ds`, whatever follows. -/
def Expands (start delimiter cs ds : List Char) : Prop := ∀ rest,
  expandFrom start delimiter .outside (cs ++ rest) =
    ds ++ expandFrom start delimiter .outside rest

theorem Expands.append {cs ds cs' ds' : List Char} (h : Expands start delimiter cs ds)
    (h' : Expands start delimiter cs' ds') : Expands start delimiter (cs ++ cs') (ds ++ ds') :=
  fun rest => by rw [List.append_assoc, h, h', List.append_assoc]

/-- A character that is kept outside brackets. -/
abbrev IsKept (c : Char) : Prop := c ∉ ['\\', '[', '^', '$', '_', '.']

theorem expandChar_kept {c : Char} (h : IsKept c) :
    expandChar start delimiter .outside c = ([c], .outside) := by
  unfold expandChar
  split
  · split
    all_goals first | rfl | exact absurd (by decide) h
  all_goals contradiction

theorem expands_kept {cs : List Char} (h : ∀ c ∈ cs, IsKept c) :
    Expands start delimiter cs cs := by
  intro rest
  induction cs with
  | nil => rfl
  | cons c cs ih =>
    obtain ⟨hc, hcs⟩ := List.forall_mem_cons.1 h
    have hne : c ≠ '\\' := (ne_of_mem_of_not_mem (by decide) hc).symm
    rw [List.cons_append, expandFrom_cons hne, expandChar_kept hc]
    exact congrArg (c :: ·) (ih hcs)

theorem expands_char {c : Char} (h : IsKept c) : Expands start delimiter [c] [c] :=
  expands_kept (List.forall_mem_singleton.2 h)

/-! ### Classes -/

/-- A character that is kept inside brackets. -/
abbrev IsInside (c : Char) : Prop := c ∉ ['\\', '^', ']']

theorem isInside_chars (m : ClassMember) : ∀ c ∈ m.chars, IsInside c := by
  have hdigit : ∀ d : Fin 10, IsInside (digitOf d) := by decide
  cases m with
  | digit d => exact List.forall_mem_singleton.2 (hdigit d)
  | range lo hi =>
    exact List.forall_mem_cons.2 ⟨hdigit lo, List.forall_mem_cons.2
      ⟨by decide, List.forall_mem_singleton.2 (hdigit hi)⟩⟩

theorem isInside_flatMap (ms : List ClassMember) :
    ∀ c ∈ ms.flatMap ClassMember.chars, IsInside c := by
  intro c hc
  obtain ⟨m, -, hm⟩ := List.mem_flatMap.1 hc
  exact isInside_chars m c hm

theorem expandFrom_inside {negated : Bool} {cs : List Char} (h : ∀ c ∈ cs, IsInside c)
    (rest : List Char) : expandFrom start delimiter (.bracket negated) (cs ++ rest) =
      cs ++ expandFrom start delimiter (.bracket negated) rest := by
  induction cs with
  | nil => rfl
  | cons c cs ih =>
    obtain ⟨hc, hcs⟩ := List.forall_mem_cons.1 h
    have hne : c ≠ '\\' := (ne_of_mem_of_not_mem (by decide) hc).symm
    have hend : c ≠ ']' := (ne_of_mem_of_not_mem (by decide) hc).symm
    rw [List.cons_append, expandFrom_cons hne, expandChar, insideBracket, if_neg hend]
    exact congrArg (c :: ·) (ih hcs)

/-- After its first character a class is no longer at its beginning. -/
theorem expandFrom_bracketStart {c : Char} (h : IsInside c) (cs : List Char) :
    expandFrom start delimiter .bracketStart (c :: cs) =
      expandFrom start delimiter (.bracket false) (c :: cs) := by
  have hne : c ≠ '\\' := (ne_of_mem_of_not_mem (by decide) h).symm
  have hcaret : c ≠ '^' := (ne_of_mem_of_not_mem (by decide) h).symm
  have hend : c ≠ ']' := (ne_of_mem_of_not_mem (by decide) h).symm
  rw [expandFrom_cons hne, expandFrom_cons hne, expandChar, if_neg hcaret, if_neg hend]
  rfl

theorem expandFrom_negatedStart {c : Char} (h : IsInside c) (cs : List Char) :
    expandFrom start delimiter .negatedStart (c :: cs) =
      expandFrom start delimiter (.bracket true) (c :: cs) := by
  have hne : c ≠ '\\' := (ne_of_mem_of_not_mem (by decide) h).symm
  have hend : c ≠ ']' := (ne_of_mem_of_not_mem (by decide) h).symm
  rw [expandFrom_cons hne, expandFrom_cons hne, expandChar, if_neg hend]
  rfl

theorem exists_flatMap_eq_cons (m : ClassMember) (ms : List ClassMember) :
    ∃ c cs, (m :: ms).flatMap ClassMember.chars = c :: cs ∧ IsInside c := by
  cases m with
  | digit d => exact ⟨_, _, rfl, isInside_chars (.digit d) _ List.mem_cons_self⟩
  | range lo hi h => exact ⟨_, _, rfl, isInside_chars (.range lo hi h) _ List.mem_cons_self⟩

theorem expands_bracket (negated : Bool) (m : ClassMember) (ms : List ClassMember) :
    Expands start delimiter (Symbol.bracket negated m ms).chars
      (Symbol.expandedBracket negated (m :: ms)) := by
  intro rest
  have hinside : expandFrom start delimiter (.bracket negated)
      ((m :: ms).flatMap ClassMember.chars ++ (']' :: rest)) =
        (m :: ms).flatMap ClassMember.chars ++ ((if negated then ['\\', '^', '\\', '$'] else []) ++
          ']' :: expandFrom start delimiter .outside rest) := by
    rw [expandFrom_inside (isInside_flatMap _), expandFrom_cons (by decide)]
    cases negated <;> rfl
  obtain ⟨c, cs, hchars, hc⟩ := exists_flatMap_eq_cons m ms
  rw [Symbol.chars, Symbol.expandedBracket, List.cons_append, expandFrom_cons (by decide)]
  rw [hchars] at hinside ⊢
  cases negated with
  | false =>
    simp only [Bool.false_eq_true, if_false, List.nil_append, List.append_assoc,
      List.cons_append] at hinside ⊢
    exact congrArg ('[' :: ·) ((expandFrom_bracketStart hc _).trans hinside)
  | true =>
    simp only [if_true, List.append_assoc, List.cons_append, List.nil_append] at hinside ⊢
    rw [← hinside]
    exact congrArg ('[' :: '^' :: ·) (expandFrom_negatedStart hc _)

/-! ### Patterns -/

theorem expands_symbol (x : Symbol) : Expands start delimiter x.chars (x.expanded delimiter) := by
  cases x with
  | char c h =>
    exact expands_char fun hc => h (List.mem_append_left _ hc)
  | endMark => exact fun rest => expandFrom_cons (by decide) rest .outside
  | delimiter => exact fun rest => expandFrom_cons (by decide) rest .outside
  | dot => exact fun rest => expandFrom_cons (by decide) rest .outside
  | bracket negated m ms => exact expands_bracket negated m ms

theorem expands_times (t : Times) : Expands start delimiter t.chars t.chars := by
  have hnot : ∀ c ∈ ['\\', '[', '^', '$', '_', '.'], c.isDigit = false :=
    List.all_iff_forall_prop.1 (by decide)
  have hdigits : ∀ n, Expands start delimiter (digits n) (digits n) := fun n =>
    expands_kept fun c hc h =>
      Bool.noConfusion ((isDigit_of_mem_digits hc).symm.trans (hnot c h))
  cases t with
  | any => exact expands_char (by decide)
  | atLeastOnce => exact expands_char (by decide)
  | atMostOnce => exact expands_char (by decide)
  | between m n =>
    have hopen : Expands start delimiter ['\x7b'] ['\x7b'] := expands_char (by decide)
    have hcomma : Expands start delimiter [','] [','] := expands_char (by decide)
    exact hopen.append ((hdigits m).append (hcomma.append ((hdigits (m + n)).append
      (expands_char (by decide)))))

theorem Expands.parentheses {cs ds : List Char} (h : Expands start delimiter cs ds) :
    Expands start delimiter ('(' :: (cs ++ [')'])) ('(' :: (ds ++ [')'])) := by
  have hopen : Expands start delimiter ['('] ['('] := expands_char (by decide)
  exact hopen.append (h.append (expands_char (by decide)))

mutual
/-- **Spelling a pattern out** changes its symbols and nothing else. -/
theorem expands_spell : ∀ p : RouterPattern,
    Expands start delimiter (p.spell .router) (p.spell (.expanded start delimiter))
  | .nothing => fun _ => rfl
  | .startMark => fun rest => expandFrom_cons (by decide) rest .outside
  | .symbol x => expands_symbol x
  | .cat p q => (expands_spell p).append (expands_spell q)
  | .group p ps => by
    have h := ((expands_spell p).append (expands_spellMore ps)).parentheses
    rwa [List.append_assoc, List.append_assoc] at h
  | .repeated p t => by
    refine Expands.append ?_ (expands_times t)
    split
    · exact expands_spell p
    · exact (expands_spell p).parentheses

theorem expands_spellMore : ∀ ps : List RouterPattern,
    Expands start delimiter (RouterPattern.spellMore .router ps)
      (RouterPattern.spellMore (.expanded start delimiter) ps)
  | [] => fun _ => rfl
  | p :: ps => by
    have hbar : Expands start delimiter ['|'] ['|'] := expands_char (by decide)
    exact hbar.append ((expands_spell p).append (expands_spellMore ps))
end

end
end Delimited
end RouteSolver
