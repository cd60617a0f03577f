/-
# Marked expressions: from an expression to its automaton

While a text is read, mark every set of bytes in the expression that can have taken the byte read
last. The marks say all about the past: `shift` computes the marks after one more byte, and the
text read so far matches when a mark `reaches` the end of the expression. Both go through the
expression once, and only the byte before and the byte after decide its assertions.

There are finitely many ways to mark an expression, so `Automaton.ofExpr` explores them.
-/

import RouteSolver.Automaton.Minimal
import RouteSolver.Regex.Expr

namespace RouteSolver
namespace Regex

/-- An expression in which some of the sets of bytes are marked. -/
inductive Marked where
  | byte (mark : Bool) (s : ByteSet)
  | look (l : Look)
  | empty
  | cat (a b : Marked)
  | alt (a b : Marked)
  | star (a : Marked)
deriving DecidableEq, Repr, Inhabited

namespace Marked

/-- The expression without any mark. -/
def ofExpr : Expr → Marked
  | .byte s => .byte false s
  | .look l => .look l
  | .empty => .empty
  | .cat a b => .cat (ofExpr a) (ofExpr b)
  | .alt a b => .alt (ofExpr a) (ofExpr b)
  | .star a => .star (ofExpr a)

/-- Whether the expression matches nothing between two bytes. -/
def nullable (before after : Option UInt8) : Marked → Bool
  | byte _ _ => false
  | look l => l.holds before after
  | empty => true
  | cat a b => a.nullable before after && b.nullable before after
  | alt a b => a.nullable before after || b.nullable before after
  | star _ => true

/-- Whether the end of the expression is reached from a mark without reading more. -/
def reaches (before after : Option UInt8) : Marked → Bool
  | byte mark _ => mark
  | look _ => false
  | empty => false
  | cat a b => (a.reaches before after && b.nullable before after) || b.reaches before after
  | alt a b => a.reaches before after || b.reaches before after
  | star a => a.reaches before after

/-- The marks after reading `b`, when the byte before it was `before`; `enter` says whether the
expression may begin here. -/
def shift (before : Option UInt8) (b : UInt8) : Bool → Marked → Marked
  | enter, byte _ s => .byte (enter && s.contains b) s
  | _, look l => .look l
  | _, empty => .empty
  | enter, cat x y =>
    let goOn := (enter && x.nullable before (some b)) || x.reaches before (some b)
    .cat (shift before b enter x) (shift before b goOn y)
  | enter, alt x y => .alt (shift before b enter x) (shift before b enter y)
  | enter, star x => .star (shift before b (enter || x.reaches before (some b)) x)

/-- The marks as binary digits after those of `acc`. -/
def digits (acc : Nat) : Marked → Nat
  | byte mark _ => 2 * acc + mark.toNat
  | look _ => acc
  | empty => acc
  | cat a b => b.digits (a.digits acc)
  | alt a b => b.digits (a.digits acc)
  | star a => a.digits acc

/-- How many sets of bytes there are. -/
def places : Marked → Nat
  | byte _ _ => 1
  | look _ => 0
  | empty => 0
  | cat a b => a.places + b.places
  | alt a b => a.places + b.places
  | star a => a.places

end Marked

/-- A text being read: the byte read last, and the marks. -/
structure Reading where
  /-- The byte read last, or nothing at the start. -/
  before : Option UInt8
  /-- The marked expression. -/
  marked : Marked
deriving DecidableEq, Repr, Inhabited

namespace Reading

/-- At the start nothing is marked. -/
def start (e : Expr) : Reading := ⟨none, .ofExpr e⟩

/-- Read one byte. The expression may begin at the start of the text only. -/
def next (r : Reading) (b : UInt8) : Reading :=
  ⟨some b, r.marked.shift r.before b r.before.isNone⟩

/-- Whether the text read so far matches, if it ends here. -/
def accepts (r : Reading) : Bool :=
  (r.before.isNone && r.marked.nullable r.before none) || r.marked.reaches r.before none

end Reading

/-- Two bytes are one letter of an expression when no set of bytes in it tells them apart, nor any
assertion if there is one. -/
def Expr.alphabet (e : Expr) : Alphabet :=
  let sets := e.byteSets.eraseDups
  let sets := if e.hasLook then wordBytes :: .single 10 :: .single 13 :: sets else sets
  Alphabet.ofKey fun b => sets.foldl (fun acc s => 2 * acc + (s.contains b).toNat) 0

/-- What the future of a reading depends on, as a number: the marks, and of the byte read last its
letter, or just that there is one if the expression makes no assertion. -/
structure ReadingKey where
  /-- The number. -/
  value : Nat
deriving DecidableEq

/-- Keys are long numbers, of which all digits count. -/
instance : Hashable ReadingKey where
  hash k := hash (k.value % 18446744073709551557)

/-- The key of a reading. -/
def Reading.key (alphabet : Alphabet) (hasLook : Bool) (r : Reading) : ReadingKey :=
  let last :=
    match r.before with
    | none => 0
    | some b => if hasLook then alphabet.letter b + 1 else 1
  ⟨r.marked.digits 0 * 257 + last⟩

end Regex

/-- The automaton of the language of an expression. -/
def Automaton.ofExpr (e : Regex.Expr) : Automaton :=
  let alphabet := e.alphabet
  let start := Regex.Reading.start e
  (explore alphabet (Regex.Reading.key alphabet e.hasLook) Regex.Reading.next
    Regex.Reading.accepts (Nat.pow 2 start.marked.places * 257) start).minimize

end RouteSolver
