/-
# What a written regular expression means

`Tree.toExpr` turns the tree of a pattern into an expression over bytes. The modes are settled here:
mode changes hold to the end of the group they stand in, across its branches, and those at the head
of a group hold inside it.

A character above ASCII stands for its bytes in sequence; inside brackets, where one byte is meant,
it makes the pattern void, unless two hexadecimal digits name a byte.
-/

import RouteSolver.Automaton.Boolean
import RouteSolver.Regex.Marked
import RouteSolver.Regex.Reader

namespace RouteSolver
namespace Regex

/-- The modes that matter for the meaning. -/
structure Modes where
  caseless : Bool
  multiline : Bool
  dotAll : Bool
  carriageReturn : Bool
deriving DecidableEq, Repr

namespace Modes

/-- The modes at the start of a pattern: all off. -/
def start : Modes := ⟨false, false, false, false⟩

/-- The modes after some changes. -/
def change (m : Modes) (changes : ModeChanges) : Modes where
  caseless := (changes.find? .caseless).getD m.caseless
  multiline := (changes.find? .multiline).getD m.multiline
  dotAll := (changes.find? .dotAll).getD m.dotAll
  carriageReturn := (changes.find? .carriageReturn).getD m.carriageReturn

/-- The bytes that a dot stands for. -/
def dot (m : Modes) : ByteSet :=
  if m.dotAll then .full
  else if m.carriageReturn then ((ByteSet.single 10).union (.single 13)).compl
  else (ByteSet.single 10).compl

/-- The assertion that an anchor makes. -/
def anchor (m : Modes) : Anchor → Look
  | .lineStart =>
    if m.multiline then (if m.carriageReturn then .anyLineStart else .lineStart) else .textStart
  | .lineEnd =>
    if m.multiline then (if m.carriageReturn then .anyLineEnd else .lineEnd) else .textEnd
  | .textStart => .textStart
  | .textEnd => .textEnd
  | .wordBoundary => .wordBoundary
  | .notWordBoundary => .notWordBoundary
  | .wordStart => .wordStart
  | .wordEnd => .wordEnd
  | .wordStartHalf => .wordStartHalf
  | .wordEndHalf => .wordEndHalf

/-- Both cases, if case does not matter. -/
def fold (m : Modes) (s : ByteSet) : ByteSet := if m.caseless then s.foldCase else s

/-- The complement, if it is asked for. -/
def complementIf (negated : Bool) (s : ByteSet) : ByteSet := if negated then s.compl else s

end Modes

/-- White space in ASCII. -/
def spaceBytes : ByteSet := .ofRanges [(9, 13), (32, 32)]

/-- Decimal digits. -/
def digitBytes : ByteSet := .range 48 57

/-- The bytes of a class with a letter of its own. -/
def ShortClass.bytes : ShortClass → ByteSet
  | .digit => digitBytes
  | .space => spaceBytes
  | .word => wordBytes

/-- The bytes of a named class. -/
def NamedClass.bytes : NamedClass → ByteSet
  | .alnum => .ofRanges [(48, 57), (65, 90), (97, 122)]
  | .alpha => .ofRanges [(65, 90), (97, 122)]
  | .ascii => .range 0 127
  | .blank => .ofRanges [(9, 9), (32, 32)]
  | .cntrl => .ofRanges [(0, 31), (127, 127)]
  | .digit => digitBytes
  | .graph => .range 33 126
  | .lower => .smalls
  | .print => .range 32 126
  | .punct => .ofRanges [(33, 47), (58, 64), (91, 96), (123, 126)]
  | .space => spaceBytes
  | .upper => .capitals
  | .word => wordBytes
  | .xdigit => .ofRanges [(48, 57), (65, 70), (97, 102)]

/-- The byte that a character stands for, if it stands for one. -/
def Literal.byte? (l : Literal) : Option UInt8 :=
  if l.isByte || l.char.toNat < 128 then some (UInt8.ofNat l.char.toNat) else none

/-- A character outside brackets: both cases if case does not matter, a byte, or its bytes in
sequence. -/
def Literal.toExpr (m : Modes) (l : Literal) : Expr :=
  match l.byte? with
  | some b =>
    if b < 128 then .byte (m.fold (.single b)) else .byte (.single b)
  | none => .literal (String.utf8EncodeChar l.char)

/-- How two classes are joined. -/
def ClassOperator.apply : ClassOperator → ByteSet → ByteSet → ByteSet
  | .intersection => .inter
  | .difference => .diff
  | .symmetricDifference => .symmDiff

mutual
/-- The bytes of what stands in brackets, before case folding and complement of the whole. -/
def ClassTree.bytes? (m : Modes) : ClassTree → Option ByteSet
  | .empty => some .empty
  | .literal l => l.byte?.map .single
  | .range first last => do
    let lo ← first.byte?
    let hi ← last.byte?
    return .range lo hi
  | .named c negated => some (Modes.complementIf negated (m.fold c.bytes))
  | .short c negated => some (Modes.complementIf negated c.bytes)
  | .bracket negated inner => do
    let s ← inner.bytes? m
    return Modes.complementIf negated (m.fold s)
  | .union items => ClassTree.unionBytes? m items
  | .operation op left right => do
    let s ← left.bytes? m
    let t ← right.bytes? m
    return op.apply (m.fold s) (m.fold t)

/-- The bytes of some items together. -/
def ClassTree.unionBytes? (m : Modes) : List ClassTree → Option ByteSet
  | [] => some .empty
  | t :: ts => do
    let s ← t.bytes? m
    let rest ← ClassTree.unionBytes? m ts
    return s.union rest
end

mutual
/-- The expression of a tree, and the modes after it. -/
def Tree.toExpr? (m : Modes) : Tree → Option (Expr × Modes)
  | .empty => some (.empty, m)
  | .modes changes => some (.empty, m.change changes)
  | .literal l => some (l.toExpr m, m)
  | .dot => some (.byte m.dot, m)
  | .anchor a => some (.look (m.anchor a), m)
  | .short c negated => some (.byte (Modes.complementIf negated c.bytes), m)
  | .bracket negated inner => do
    let s ← inner.bytes? m
    return (.byte (Modes.complementIf negated (m.fold s)), m)
  | .repetition body min max => do
    let (e, m) ← body.toExpr? m
    return (e.repeated min max, m)
  | .group changes body => do
    let (e, _) ← body.toExpr? (m.change changes)
    return (e, m)
  | .alternation branches => do
    let (es, m) ← Tree.toExprs? m branches
    return (Expr.oneOf es, m)
  | .concat pieces => do
    let (es, m) ← Tree.toExprs? m pieces
    return (Expr.seq es, m)

/-- The expressions of some trees, each under the modes that the one before it leaves. -/
def Tree.toExprs? (m : Modes) : List Tree → Option (List Expr × Modes)
  | [] => some ([], m)
  | t :: ts => do
    let (e, m) ← t.toExpr? m
    let (es, m) ← Tree.toExprs? m ts
    return (e :: es, m)
end

/-- The expression of a pattern, or nothing if it is no pattern. -/
def Expr.read? (pattern : String) : Option Expr := do
  let tree ← Tree.read? pattern.toList
  let (e, _) ← tree.toExpr? .start
  return e

end Regex

/-- A pattern that is none. -/
structure InvalidPattern where
  /-- The pattern. -/
  pattern : String
deriving DecidableEq, Repr

/-- What is said about it. -/
def InvalidPattern.message (e : InvalidPattern) : String :=
  "invalid regex \x60" ++ e.pattern ++ "\x60: error building NFA"

/-- The automaton of the strings that a pattern matches as a whole. -/
def Automaton.ofPattern (pattern : String) : Except InvalidPattern Automaton :=
  match Regex.Expr.read? pattern with
  | some e => .ok (.ofExpr e)
  | none => .error ⟨pattern⟩

end RouteSolver
