/-
# Regular expressions over bytes

An `Expr` describes a set of byte strings in context: besides sets of bytes, sequence, alternative
and repetition it has assertions, which read nothing and hold or fail by the byte before and the
byte after them. `Expr.Matches` gives the meaning by recursion on the expression.
-/

import RouteSolver.ByteSet

namespace RouteSolver
namespace Regex

/-- What an assertion asks for. Words are runs of ASCII letters, digits and low lines. -/
inductive Look where
  /-- Nothing comes before. -/
  | textStart
  /-- Nothing comes after. -/
  | textEnd
  /-- Nothing or a line feed comes before. -/
  | lineStart
  /-- Nothing or a line feed comes after. -/
  | lineEnd
  /-- A line begins here, when lines may also end in a carriage return alone or before a feed. -/
  | anyLineStart
  /-- A line ends here, when lines may also end in a carriage return alone or before a feed. -/
  | anyLineEnd
  /-- A word begins or ends here. -/
  | wordBoundary
  /-- No word begins or ends here. -/
  | notWordBoundary
  /-- A word begins here. -/
  | wordStart
  /-- A word ends here. -/
  | wordEnd
  /-- No word comes before. -/
  | wordStartHalf
  /-- No word comes after. -/
  | wordEndHalf
deriving DecidableEq, Repr

/-- The bytes of words. -/
def wordBytes : ByteSet := .ofRanges [(48, 57), (65, 90), (95, 95), (97, 122)]

/-- Whether there is a byte here and it belongs to a word. -/
def isWord (b : Option UInt8) : Bool := b.any wordBytes.contains

/-- Whether an assertion holds between two bytes, where `none` is the end of the text. -/
def Look.holds (l : Look) (before after : Option UInt8) : Bool :=
  match l with
  | textStart => before.isNone
  | textEnd => after.isNone
  | lineStart => before.isNone || before == some 10
  | lineEnd => after.isNone || after == some 10
  | anyLineStart => before.isNone || before == some 10 || (before == some 13 && after != some 10)
  | anyLineEnd => after.isNone || after == some 13 || (after == some 10 && before != some 13)
  | wordBoundary => isWord before != isWord after
  | notWordBoundary => isWord before == isWord after
  | wordStart => !isWord before && isWord after
  | wordEnd => isWord before && !isWord after
  | wordStartHalf => !isWord before
  | wordEndHalf => !isWord after

/-- A regular expression over bytes. -/
inductive Expr where
  /-- One byte of a set. -/
  | byte (s : ByteSet)
  /-- Nothing, where an assertion holds. -/
  | look (l : Look)
  /-- Nothing. -/
  | empty
  /-- One after the other. -/
  | cat (a b : Expr)
  /-- One or the other. -/
  | alt (a b : Expr)
  /-- Any number of times. -/
  | star (a : Expr)
deriving DecidableEq, Repr, Inhabited

namespace Expr

/-- The byte before what follows `w`. -/
def lastOr (before : Option UInt8) (w : List UInt8) : Option UInt8 :=
  w.getLast?.or before

/-- The byte after what comes before `w`. -/
def headOr (after : Option UInt8) (w : List UInt8) : Option UInt8 :=
  w.head?.or after

/-- Some pieces in a row, each of which `piece` admits in its place. -/
inductive Pieces (piece : Option UInt8 → List UInt8 → Option UInt8 → Prop) :
    Option UInt8 → List UInt8 → Option UInt8 → Prop
  | nil (before after : Option UInt8) : Pieces piece before [] after
  | cons (before after : Option UInt8) (u v : List UInt8)
      (first : piece before u (headOr after v)) (rest : Pieces piece (lastOr before u) v after) :
      Pieces piece before (u ++ v) after

/-- `e.Matches before w after` says that `w` matches between the bytes `before` and `after`. -/
def Matches : Expr → Option UInt8 → List UInt8 → Option UInt8 → Prop
  | byte s, _, w, _ => ∃ b, s.contains b = true ∧ w = [b]
  | look l, before, w, after => w = [] ∧ l.holds before after = true
  | empty, _, w, _ => w = []
  | cat a b, before, w, after =>
    ∃ u v, w = u ++ v ∧ a.Matches before u (headOr after v) ∧ b.Matches (lastOr before u) v after
  | alt a b, before, w, after => a.Matches before w after ∨ b.Matches before w after
  | star a, before, w, after => Pieces a.Matches before w after

/-- The language of an expression: the byte strings that it matches as a whole. -/
def Language (e : Expr) (w : List UInt8) : Prop := e.Matches none w none

/-! ### Building expressions -/

/-- The expression that matches nothing at all. -/
def never : Expr := .byte .empty

/-- One after the other, for a list. -/
def seq : List Expr → Expr
  | [] => .empty
  | [e] => e
  | e :: es => .cat e (seq es)

/-- One of a list. -/
def oneOf : List Expr → Expr
  | [] => never
  | [e] => e
  | e :: es => .alt e (oneOf es)

/-- Once or not at all. -/
def optional (e : Expr) : Expr := .alt .empty e

/-- At most `n` times: each further time only after the one before. -/
def atMost (e : Expr) : Nat → Expr
  | 0 => .empty
  | 1 => optional e
  | n + 1 => optional (.cat e (atMost e n))

/-- Exactly `n` times. -/
def exactly (e : Expr) (n : Nat) : Expr := seq (List.replicate n e)

/-- At least `min` times, and at most `max` times if there is a bound. -/
def repeated (e : Expr) (min : Nat) (max : Option Nat) : Expr :=
  match min, max with
  | 0, none => .star e
  | 0, some n => atMost e n
  | m + 1, none => .cat (exactly e (m + 1)) (.star e)
  | m + 1, some n =>
    if n = m + 1 then exactly e n else .cat (exactly e (m + 1)) (atMost e (n - (m + 1)))

/-- The given bytes in order. -/
def literal (w : List UInt8) : Expr := seq (w.map fun b => .byte (.single b))

/-- Whether the expression makes an assertion. -/
def hasLook : Expr → Bool
  | byte _ => false
  | look _ => true
  | empty => false
  | cat a b => a.hasLook || b.hasLook
  | alt a b => a.hasLook || b.hasLook
  | star a => a.hasLook

/-- The sets of bytes that occur in the expression. -/
def byteSets : Expr → List ByteSet
  | byte s => [s]
  | look _ => []
  | empty => []
  | cat a b => a.byteSets ++ b.byteSets
  | alt a b => a.byteSets ++ b.byteSets
  | star a => a.byteSets

end Expr
end Regex
end RouteSolver
