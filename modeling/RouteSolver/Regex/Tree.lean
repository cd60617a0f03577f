/-
# Written regular expressions

The tree of a regular expression as it is written: characters, classes in brackets, groups with
mode changes, counted repetitions. What the modes do to a character or a dot is settled later, so
the tree keeps the mode changes in their places.

`Tree.height` counts how deep sequences, alternatives, repetitions, groups and brackets are nested
in each other.
-/

namespace RouteSolver
namespace Regex

/-- A switch that a group can turn on or off. -/
inductive Mode where
  /-- Both cases of an ASCII letter mean the same. -/
  | caseless
  /-- Line anchors match inside the text. -/
  | multiline
  /-- A dot matches line ends too. -/
  | dotAll
  /-- Repetitions prefer fewer times; which strings match does not depend on it. -/
  | lazy
  /-- Characters rather than bytes; only ever turned off. -/
  | characters
  /-- A carriage return ends a line too. -/
  | carriageReturn
  /-- White space and comments between the parts are skipped. -/
  | verbose
deriving DecidableEq, Repr

/-- Modes that are turned on or off together. -/
abbrev ModeChanges := List (Mode × Bool)

/-- What the changes say about a mode, if anything. -/
def ModeChanges.find? (changes : ModeChanges) (m : Mode) : Option Bool := changes.lookup m

/-- A character as it is written. -/
structure Literal where
  /-- The character. -/
  char : Char
  /-- It is given by two hexadecimal digits, and so means the byte with that number. -/
  isByte : Bool
deriving DecidableEq, Repr, Inhabited

/-- A written assertion; what the anchors mean depends on the modes. -/
inductive Anchor where
  | lineStart
  | lineEnd
  | textStart
  | textEnd
  | wordBoundary
  | notWordBoundary
  | wordStart
  | wordEnd
  | wordStartHalf
  | wordEndHalf
deriving DecidableEq, Repr

/-- The classes with a letter of their own. -/
inductive ShortClass where
  | digit
  | space
  | word
deriving DecidableEq, Repr

/-- The classes that have a name inside brackets. -/
inductive NamedClass where
  | alnum
  | alpha
  | ascii
  | blank
  | cntrl
  | digit
  | graph
  | lower
  | print
  | punct
  | space
  | upper
  | word
  | xdigit
deriving DecidableEq, Repr

/-- How two classes are joined inside brackets. -/
inductive ClassOperator where
  | intersection
  | difference
  | symmetricDifference
deriving DecidableEq, Repr

/-- What stands in brackets. -/
inductive ClassTree where
  | empty
  | literal (l : Literal)
  | range (first last : Literal)
  | named (c : NamedClass) (negated : Bool)
  | short (c : ShortClass) (negated : Bool)
  | bracket (negated : Bool) (inner : ClassTree)
  | union (items : List ClassTree)
  | operation (op : ClassOperator) (left right : ClassTree)
deriving Repr, Inhabited

/-- A regular expression as it is written. -/
inductive Tree where
  | empty
  | modes (changes : ModeChanges)
  | literal (l : Literal)
  | dot
  | anchor (a : Anchor)
  | short (c : ShortClass) (negated : Bool)
  | bracket (negated : Bool) (inner : ClassTree)
  | repetition (body : Tree) (min : Nat) (max : Option Nat)
  | group (changes : ModeChanges) (body : Tree)
  | alternation (branches : List Tree)
  | concat (pieces : List Tree)
deriving Repr, Inhabited

mutual
/-- Nesting depth of what stands in brackets. -/
def ClassTree.height : ClassTree → Nat
  | .bracket _ inner => inner.height + 1
  | .union items => ClassTree.heights items + 1
  | .operation _ left right => max left.height right.height + 1
  | .empty | .literal _ | .range _ _ | .named _ _ | .short _ _ => 0

/-- The greatest nesting depth in a list. -/
def ClassTree.heights : List ClassTree → Nat
  | [] => 0
  | t :: ts => max t.height (ClassTree.heights ts)
end

mutual
/-- Nesting depth of a regular expression. -/
def Tree.height : Tree → Nat
  | .bracket _ inner => inner.height + 1
  | .repetition body _ _ => body.height + 1
  | .group _ body => body.height + 1
  | .alternation branches => Tree.heights branches + 1
  | .concat pieces => Tree.heights pieces + 1
  | .empty | .modes _ | .literal _ | .dot | .anchor _ | .short _ _ => 0

/-- The greatest nesting depth in a list. -/
def Tree.heights : List Tree → Nat
  | [] => 0
  | t :: ts => max t.height (Tree.heights ts)
end

/-- Some items of a class together; a single item stands for itself. -/
def ClassTree.ofItems : List ClassTree → ClassTree
  | [] => .empty
  | [t] => t
  | ts => .union ts

/-- Some pieces in sequence; a single piece stands for itself. -/
def Tree.ofPieces : List Tree → Tree
  | [] => .empty
  | [t] => t
  | ts => .concat ts

end Regex
end RouteSolver
