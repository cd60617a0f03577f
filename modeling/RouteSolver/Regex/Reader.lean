/-
# Reading a regular expression

The reader walks over the pattern once and keeps the pieces of the branch it is in. Groups that are
still open wait on a stack with the branches around them. Every step takes at least one character
of the pattern, so its length bounds the steps.

Patterns whose parts are nested more than 250 deep are refused, and so is every pattern that asks
for what byte strings cannot have: back references, looking around, character properties.
-/

import RouteSolver.Regex.Bracket
import RouteSolver.Text.Decimal
import RouteSolver.Text.Letter

namespace RouteSolver
namespace Regex

/-- An open group, with what stands around it. -/
structure OpenGroup where
  /-- The modes that the group changes. -/
  changes : ModeChanges
  /-- The pieces before the group in its branch, latest first. -/
  pieces : List Tree
  /-- The branches before that branch, latest first. -/
  branches : List Tree
  /-- Whether the verbose mode is on around the group. -/
  verbose : Bool

/-- How far the reader has come. -/
structure ReaderState where
  /-- The pieces of the current branch, latest first. -/
  pieces : List Tree
  /-- The earlier branches of the current group, latest first. -/
  branches : List Tree
  /-- Whether white space and comments are skipped. -/
  verbose : Bool
  /-- The groups that are open, innermost first. -/
  groups : List OpenGroup
  /-- The group names in use. -/
  names : List (List Char)

namespace ReaderState

/-- The start of a pattern. -/
def start : ReaderState := ⟨[], [], false, [], []⟩

/-- Add a piece to the current branch. -/
def push (st : ReaderState) (t : Tree) : ReaderState := { st with pieces := t :: st.pieces }

/-- The current branch as a tree. -/
def branch (st : ReaderState) : Tree := Tree.ofPieces st.pieces.reverse

/-- All branches of the current group as a tree. -/
def body (st : ReaderState) : Tree :=
  match st.branches with
  | [] => st.branch
  | earlier => .alternation (earlier.reverse ++ [st.branch])

/-- Begin the next branch. -/
def nextBranch (st : ReaderState) : ReaderState :=
  { st with pieces := [], branches := st.branch :: st.branches }

/-- Begin a group. -/
def openGroup (st : ReaderState) (changes : ModeChanges) : ReaderState :=
  { st with
    pieces := []
    branches := []
    verbose := (changes.find? .verbose).getD st.verbose
    groups := ⟨changes, st.pieces, st.branches, st.verbose⟩ :: st.groups }

/-- End a group, which becomes a piece of the branch around it. -/
def closeGroup (st : ReaderState) : Option ReaderState :=
  match st.groups with
  | [] => none
  | g :: rest =>
    some { st with
      pieces := .group g.changes st.body :: g.pieces
      branches := g.branches
      verbose := g.verbose
      groups := rest }

/-- Repeat the latest piece; there has to be one, and a mode change is none. -/
def repeatLatest (st : ReaderState) (min : Nat) (max : Option Nat) : Option ReaderState :=
  match st.pieces with
  | [] => none
  | .modes _ :: _ => none
  | t :: ts => some { st with pieces := .repetition t min max :: ts }

end ReaderState

/-- Drop the question mark that makes a repetition lazy. -/
def dropLazy : List Char → List Char
  | '?' :: cs => cs
  | cs => cs

/-! ### Counted repetitions -/

/-- The digits of a count, with the white space of verbose mode between them. -/
def countDigits (verbose : Bool) : Nat → List Char → List Char × List Char
  | 0, cs => ([], cs)
  | bound + 1, cs =>
    match cs with
    | c :: rest =>
      if c.isDigit then
        let (ds, rest) := countDigits verbose bound (ahead verbose rest)
        (c :: ds, rest)
      else ([], cs)
    | [] => ([], [])

/-- A count with white space around it: `none` for the count if there are no digits; fails on a
count that does not fit in 32 bits. -/
def count (verbose : Bool) (cs : List Char) : Option (Option Nat × List Char) :=
  let cs := cs.dropWhile isBlank
  let (ds, cs) := countDigits verbose cs.length cs
  let cs := (cs.dropWhile isBlank)
  let cs := ahead verbose cs
  if ds.isEmpty then some (none, cs)
  else
    let n := Decimal.value ds
    if n < 4294967296 then some (some n, cs) else none

/-- A counted repetition, after its opening brace: the bounds, and what follows it. -/
def counted (verbose : Bool) (cs : List Char) : Option (Nat × Option Nat × List Char) := do
  let (first, rest) ← count verbose (ahead verbose cs)
  let (min, max, rest) ←
    match rest with
    | ',' :: rest =>
      match ahead verbose rest with
      | '}' :: rest => first.map fun n => (n, none, '}' :: rest)
      | more => do
        let n ← first
        let (second, rest) ← count verbose more
        let m ← second
        if n ≤ m then some (n, some m, rest) else none
    | rest => first.map fun n => (n, some n, rest)
  match rest with
  | '}' :: rest => return (min, max, dropLazy (ahead verbose rest))
  | _ => none

/-! ### Groups -/

/-- The mode that a letter stands for. -/
def mode? (c : Char) : Option Mode :=
  match c with
  | 'i' => some .caseless
  | 'm' => some .multiline
  | 's' => some .dotAll
  | 'U' => some .lazy
  | 'u' => some .characters
  | 'R' => some .carriageReturn
  | 'x' => some .verbose
  | _ => none

/-- The mode changes at the head of a group, up to the colon or parenthesis that ends them. Letters
after the dash turn modes off. No letter and no dash comes twice, and a dash is not the last. -/
def modeChanges (off : Bool) (afterDash : Bool) :
    ModeChanges → List Char → Option (ModeChanges × Char × List Char)
  | _, [] => none
  | changes, c :: cs =>
    if c = ':' ∨ c = ')' then
      if afterDash then none else some (changes.reverse, c, cs)
    else if c = '-' then
      if off then none else modeChanges true true changes cs
    else
      match mode? c with
      | none => none
      | some m =>
        if (changes.find? m).isSome then none
        else modeChanges off false ((m, !off) :: changes) cs

/-- Whether a character may stand in the name of a group. -/
def isNameChar (first : Bool) (c : Char) : Bool :=
  if first then c = '_' || Letter.isAlphabetic c
  else c = '_' || c = '.' || c = '[' || c = ']' || Letter.isAlphanumeric c

/-- The name of a group up to the bracket that closes it. -/
def groupName : List Char → Option (List Char × List Char)
  | cs =>
    let name := cs.takeWhile (· ≠ '>')
    match name, cs.dropWhile (· ≠ '>') with
    | c :: more, '>' :: rest =>
      if isNameChar true c && more.all (isNameChar false) then some (name, rest) else none
    | _, _ => none

/-- Begin a named group. -/
def namedGroup (st : ReaderState) (cs : List Char) : Option (ReaderState × List Char) := do
  let (name, rest) ← groupName cs
  if name ∈ st.names then none
  else return ({ st.openGroup [] with names := name :: st.names }, rest)

/-- What follows an opening parenthesis: a group, or mode changes for the rest of the one around
it. Modes cannot change to reading characters instead of bytes. -/
def afterParenthesis (st : ReaderState) (cs : List Char) : Option (ReaderState × List Char) :=
  match ahead st.verbose cs with
  | '?' :: '=' :: _ | '?' :: '!' :: _ | '?' :: '<' :: '=' :: _ | '?' :: '<' :: '!' :: _ => none
  | '?' :: 'P' :: '<' :: rest => namedGroup st rest
  | '?' :: '<' :: rest => namedGroup st rest
  | '?' :: rest => do
    let (changes, last, rest) ← modeChanges false false [] rest
    if changes.find? .characters = some true then none
    else if last = ':' then return (st.openGroup changes, rest)
    else if changes.isEmpty then none
    else
      let st := { st with verbose := (changes.find? .verbose).getD st.verbose }
      return (st.push (.modes changes), rest)
  | rest => some (st.openGroup [], rest)

/-! ### The whole pattern -/

/-- A primitive as a piece of a pattern. -/
def Primitive.toTree : Primitive → Tree
  | .literal l => .literal l
  | .anchor a => .anchor a
  | .dot => .dot
  | .short c negated => .short c negated

/-- Read one piece, or one mark between pieces. -/
def readStep (st : ReaderState) : Char → List Char → Option (ReaderState × List Char)
  | '(', cs => afterParenthesis st cs
  | ')', cs => st.closeGroup.map fun st => (st, cs)
  | '|', cs => some (st.nextBranch, cs)
  | '[', cs => (Bracket.read st.verbose ('[' :: cs)).map fun r => (st.push r.1, r.2)
  | '?', cs => (st.repeatLatest 0 (some 1)).map fun st => (st, dropLazy cs)
  | '*', cs => (st.repeatLatest 0 none).map fun st => (st, dropLazy cs)
  | '+', cs => (st.repeatLatest 1 none).map fun st => (st, dropLazy cs)
  | '\x7b', cs => do
    let (min, max, rest) ← counted st.verbose cs
    return (← st.repeatLatest min max, rest)
  | '\\', cs => (escape st.verbose cs).map fun r => (st.push r.1.toTree, r.2)
  | '.', cs => some (st.push .dot, cs)
  | '^', cs => some (st.push (.anchor .lineStart), cs)
  | '$', cs => some (st.push (.anchor .lineEnd), cs)
  | c, cs => some (st.push (.literal ⟨c, false⟩), cs)

/-- Read on to the end of the pattern, in at most `bound` steps. -/
def readFrom : Nat → ReaderState → List Char → Option Tree
  | 0, _, _ => none
  | bound + 1, st, cs =>
    match ahead st.verbose cs with
    | [] => if st.groups.isEmpty then some st.body else none
    | c :: rest => do
      let (st, rest) ← readStep st c rest
      readFrom bound st rest

/-- How deep the parts of a pattern may be nested. -/
def nestingLimit : Nat := 250

/-- The tree of a pattern, or nothing if it is no pattern. -/
def Tree.read? (pattern : List Char) : Option Tree := do
  let tree ← readFrom (pattern.length + 1) .start pattern
  if tree.height ≤ nestingLimit then return tree else none

end Regex
end RouteSolver
