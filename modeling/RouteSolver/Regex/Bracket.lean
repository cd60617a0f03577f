/-
# Classes in brackets

Reads what stands between square brackets: characters, ranges, escapes, named classes, brackets
inside brackets, and the operators for intersection, difference and symmetric difference, which
bind weaker than standing side by side and group to the left.

The reader walks over the text once. Open brackets and operators whose right side is still to come
wait on a stack.
-/

import RouteSolver.Regex.Escape

namespace RouteSolver
namespace Regex
namespace Bracket

/-- What waits for its other end. -/
inductive Waiting where
  /-- A bracket, with the items (latest first) of the one around it. -/
  | bracket (outer : List ClassTree) (negated : Bool)
  /-- An operator with its left side. -/
  | operator (op : ClassOperator) (left : ClassTree)

/-- How far the reader has come. -/
structure State where
  /-- Items since the last bracket or operator, latest first. -/
  items : List ClassTree
  /-- Open brackets and operators, innermost first. -/
  waiting : List Waiting

/-- The items since the last operator as its right side, or as the whole if there is none. -/
def State.close (st : State) : ClassTree × List Waiting :=
  let right := ClassTree.ofItems st.items.reverse
  match st.waiting with
  | .operator op left :: rest => (.operation op left right, rest)
  | rest => (right, rest)

/-- The class with a name. -/
def namedClass? (name : String) : Option NamedClass :=
  match name with
  | "alnum" => some .alnum
  | "alpha" => some .alpha
  | "ascii" => some .ascii
  | "blank" => some .blank
  | "cntrl" => some .cntrl
  | "digit" => some .digit
  | "graph" => some .graph
  | "lower" => some .lower
  | "print" => some .print
  | "punct" => some .punct
  | "space" => some .space
  | "upper" => some .upper
  | "word" => some .word
  | "xdigit" => some .xdigit
  | _ => none

/-- A named class, after its opening bracket. Anything else that begins with a bracket is left to
be read as a bracket. -/
def named? : List Char → Option (ClassTree × List Char)
  | ':' :: cs =>
    let (negated, cs) :=
      match cs with
      | '^' :: rest => (true, rest)
      | rest => (false, rest)
    let name := cs.takeWhile (· ≠ ':')
    match cs.dropWhile (· ≠ ':') with
    | ':' :: ']' :: rest =>
      (namedClass? (String.ofList name)).map fun c => (.named c negated, rest)
    | _ => none
  | _ => none

/-- Leading dashes stand for themselves. -/
def leadingDashes (verbose : Bool) : Nat → List Char → List ClassTree × List Char
  | bound + 1, '-' :: cs =>
    let (items, rest) := leadingDashes verbose bound (ahead verbose cs)
    (.literal ⟨'-', false⟩ :: items, rest)
  | _, cs => ([], cs)

/-- The beginning of a bracket, after the opening one: whether it is negated, the leading dashes,
or else a leading closing bracket, which stands for itself. -/
def opening (verbose : Bool) (cs : List Char) : Bool × List ClassTree × List Char :=
  let cs := ahead verbose cs
  let (negated, cs) :=
    match cs with
    | '^' :: rest => (true, ahead verbose rest)
    | _ => (false, cs)
  let (dashes, cs) := leadingDashes verbose cs.length cs
  match dashes, cs with
  | [], ']' :: rest => (negated, [.literal ⟨']', false⟩], ahead verbose rest)
  | _, _ => (negated, dashes, cs)

/-- One character or escape. -/
def item (verbose : Bool) : List Char → Option (Primitive × List Char)
  | [] => none
  | '\\' :: cs => escape verbose cs
  | c :: cs => some (.literal ⟨c, false⟩, cs)

/-- An escape as an item of a class; anchors are none. -/
def asItem : Primitive → Option ClassTree
  | .literal l => some (.literal l)
  | .short c negated => some (.short c negated)
  | .anchor _ | .dot => none

/-- An end of a range; only characters are. -/
def asEnd : Primitive → Option Literal
  | .literal l => some l
  | _ => none

/-- The next character that is not white space, also when a comment has begun. In a pattern of
white space only, whatever comes first. -/
def pastBlanks (inComment : Bool) : List Char → Option Char
  | [] => none
  | c :: cs =>
    if isBlank c then pastBlanks inComment cs
    else if !inComment && c = '#' then pastBlanks true cs
    else some c

/-- What follows a dash, as far as it decides whether the dash makes a range. -/
def afterDash (verbose : Bool) (cs : List Char) : Option Char :=
  if verbose then (pastBlanks false cs).or cs.head? else cs.head?

/-- A character, an escape or a range. A dash makes a range unless a closing bracket or another
dash follows. -/
def range (verbose : Bool) (cs : List Char) : Option (ClassTree × List Char) := do
  let (first, rest) ← item verbose cs
  match ahead verbose rest with
  | [] => none
  | c :: after =>
    let next := afterDash verbose after
    if c ≠ '-' ∨ next = some ']' ∨ next = some '-' then
      return (← asItem first, c :: after)
    else
      let (last, rest) ← item verbose (ahead verbose after)
      let lo ← asEnd first
      let hi ← asEnd last
      if lo.char ≤ hi.char then return (.range lo hi, rest) else none

/-- Wait for the right side of an operator. -/
def State.operator (st : State) (op : ClassOperator) : State :=
  let (left, waiting) := st.close
  ⟨[], .operator op left :: waiting⟩

/-- Read on until the outermost bracket closes, in at most `bound` steps. -/
def readWithin (verbose : Bool) : Nat → State → List Char → Option (Tree × List Char)
  | 0, _, _ => none
  | bound + 1, st, cs =>
    match ahead verbose cs with
    | [] => none
    | '[' :: rest =>
      match (if st.waiting.isEmpty then none else named? rest) with
      | some (tree, rest) => readWithin verbose bound { st with items := tree :: st.items } rest
      | none =>
        let (negated, items, rest) := opening verbose rest
        readWithin verbose bound ⟨items.reverse, .bracket st.items negated :: st.waiting⟩ rest
    | ']' :: rest =>
      match st.close with
      | (inner, .bracket outer negated :: waiting) =>
        if waiting.isEmpty then some (.bracket negated inner, rest)
        else readWithin verbose bound ⟨.bracket negated inner :: outer, waiting⟩ rest
      | _ => none
    | '&' :: '&' :: rest => readWithin verbose bound (st.operator .intersection) rest
    | '-' :: '-' :: rest => readWithin verbose bound (st.operator .difference) rest
    | '~' :: '~' :: rest => readWithin verbose bound (st.operator .symmetricDifference) rest
    | other => do
      let (tree, rest) ← range verbose other
      readWithin verbose bound { st with items := tree :: st.items } rest

/-- Read a class from its opening bracket on. Every step takes a character. -/
def read (verbose : Bool) (cs : List Char) : Option (Tree × List Char) :=
  readWithin verbose (cs.length + 1) ⟨[], []⟩ cs

end Bracket
end Regex
end RouteSolver
