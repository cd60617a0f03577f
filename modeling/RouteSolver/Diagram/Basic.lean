/-
# Shared decision diagrams

A Boolean function of the variables `0, 1, 2, …` is kept as a decision diagram: a node asks for
one variable and continues at its low child when the variable is false, at its high child when it
is true. All diagrams live in one `Store`, which only ever grows: a node is written once and is
found again when the same question with the same children comes up. So a `Ref`, the name of a
diagram in its store, stays good for ever, and two diagrams are the same function exactly when
their names are equal.

Lower variables stand closer to the root, a child is always older than its parent, and no node
has two equal children; the recursions below end because they go from parents to children.

Main operations: the literals `positive` and `negative`, the connectives `neg`, `conj`, `disj`,
`implies`, `conjAll` and `disjAll`, the value `Store.eval` under a valuation, and the test
`Store.entails`, which adds no node.
-/

import Std.Data.HashMap

namespace RouteSolver
namespace Diagram

/-- The name of a diagram inside its store. -/
structure Ref where
  /-- Position of the root node in the store. -/
  id : Nat
deriving DecidableEq, Hashable, Repr, Inhabited

namespace Ref

/-- The diagram that is false everywhere. -/
def bot : Ref := ⟨0⟩

/-- The diagram that is true everywhere. -/
def top : Ref := ⟨1⟩

/-- The two constants are the only diagrams that ask no question. -/
def isConstant (r : Ref) : Bool := r.id < 2

end Ref

/-- One question: the variable asked for, and where to go on for each answer. -/
structure Node where
  /-- The variable asked for. -/
  level : Nat
  /-- The diagram for the answer "false". -/
  low : Ref
  /-- The diagram for the answer "true". -/
  high : Ref
deriving DecidableEq, Hashable, Repr, Inhabited

/-- The two binary connectives that the store knows. -/
inductive Connective where
  | conj
  | disj
deriving DecidableEq, Hashable, Repr

namespace Connective

/-- The operand that decides the result alone. -/
def absorbing : Connective → Ref
  | conj => .bot
  | disj => .top

/-- The operand that leaves the other one as it is. -/
def neutral : Connective → Ref
  | conj => .top
  | disj => .bot

end Connective

/-- All nodes made so far, the index that finds a node again, the results already computed, and
the number of variables that have been named. -/
structure Store where
  /-- The nodes by position. The first two stand for the constants and hold no question. -/
  nodes : Array Node
  /-- Where each node is kept. -/
  index : Std.HashMap Node Ref
  /-- Results of the binary connectives. -/
  combined : Std.HashMap (Connective × Ref × Ref) Ref
  /-- Results of negation. -/
  negated : Std.HashMap Ref Ref
  /-- One more than the highest variable named so far. -/
  variableCount : Nat

namespace Store

/-- The store that holds the two constants only. -/
def empty : Store where
  nodes := #[⟨0, .bot, .bot⟩, ⟨0, .top, .top⟩]
  index := ∅
  combined := ∅
  negated := ∅
  variableCount := 0

instance : Inhabited Store := ⟨empty⟩

/-- How many nodes the store holds, the constants included. -/
def size (s : Store) : Nat := s.nodes.size

/-- The question at the root of a diagram. -/
def node (s : Store) (r : Ref) : Node := s.nodes[r.id]?.getD default

/-- Both cofactors of a diagram for a variable that is not below its root. -/
def cofactors (s : Store) (r : Ref) (level : Nat) : Ref × Ref :=
  let n := s.node r
  if n.level = level then (n.low, n.high) else (r, r)

/-! ### The meaning of a diagram -/

/-- `eval` with a bound on the number of questions. -/
def evalWithin (s : Store) (v : Nat → Bool) : Nat → Ref → Bool
  | 0, r => r == .top
  | bound + 1, r =>
    if r.isConstant then r == .top
    else
      let n := s.node r
      evalWithin s v bound (if v n.level then n.high else n.low)

/-- The value of a diagram when variable `i` has the value `v i`. Children are older than their
parents, so the position of the root bounds the number of questions. -/
def eval (s : Store) (r : Ref) (v : Nat → Bool) : Bool := s.evalWithin v r.id r

end Store

/-- A computation that may add nodes to the store. -/
abbrev Build := StateM Store

/-! ### Nodes and literals -/

/-- The diagram that asks for `level` and goes on at `low` or `high`: no question at all when both
are the same, the node that is already there if there is one, else a new node. -/
def ask (level : Nat) (low high : Ref) : Build Ref := fun s =>
  if low = high then (low, s)
  else
    let n : Node := ⟨level, low, high⟩
    match s.index[n]? with
    | some r => (r, s)
    | none =>
      let r : Ref := ⟨s.nodes.size⟩
      (r, { s with nodes := s.nodes.push n, index := s.index.insert n r })

/-- Record that variable `i` has been named. -/
def name (i : Nat) : Build Unit :=
  modify fun s => { s with variableCount := max s.variableCount (i + 1) }

/-- The diagram that is true exactly when variable `i` is. -/
def positive (i : Nat) : Build Ref := do
  name i
  ask i .bot .top

/-- The diagram that is true exactly when variable `i` is not. -/
def negative (i : Nat) : Build Ref := do
  name i
  ask i .top .bot

/-! ### Connectives -/

/-- `neg` with a bound on the depth of the recursion. -/
def negWithin : Nat → Ref → Build Ref
  | 0, r => pure r
  | bound + 1, r => do
    if r = .bot then return .top
    if r = .top then return .bot
    if let some known := (← get).negated[r]? then return known
    let n := (← get).node r
    let low ← negWithin bound n.low
    let high ← negWithin bound n.high
    let result ← ask n.level low high
    modify fun s => { s with negated := s.negated.insert r result }
    return result

/-- Negation. -/
def neg (r : Ref) : Build Ref := negWithin (r.id + 1) r

/-- `combine` with a bound on the depth of the recursion. -/
def combineWithin (op : Connective) : Nat → Ref → Ref → Build Ref
  | 0, a, _ => pure a
  | bound + 1, a, b => do
    if a = op.absorbing ∨ b = op.absorbing then return op.absorbing
    if a = op.neutral ∨ a = b then return b
    if b = op.neutral then return a
    let key := if a.id ≤ b.id then (op, a, b) else (op, b, a)
    if let some known := (← get).combined[key]? then return known
    let level := min ((← get).node a).level ((← get).node b).level
    let (aLow, aHigh) := (← get).cofactors a level
    let (bLow, bHigh) := (← get).cofactors b level
    let low ← combineWithin op bound aLow bLow
    let high ← combineWithin op bound aHigh bHigh
    let result ← ask level low high
    modify fun s => { s with combined := s.combined.insert key result }
    return result

/-- A connective applied to two diagrams. Each step replaces one operand by an older one, so the
two positions together bound the recursion. -/
def combine (op : Connective) (a b : Ref) : Build Ref := combineWithin op (a.id + b.id + 1) a b

/-- Conjunction. -/
def conj (a b : Ref) : Build Ref := combine .conj a b

/-- Disjunction. -/
def disj (a b : Ref) : Build Ref := combine .disj a b

/-- Implication, built as "not the first, or the second". -/
def implies (a b : Ref) : Build Ref := do
  let notA ← neg a
  disj notA b

/-- Combine a list from the left, starting from `acc`. Once the absorbing constant is reached the
rest of the list is left alone. -/
def combineFrom (op : Connective) : Ref → List Ref → Build Ref
  | acc, [] => pure acc
  | acc, f :: fs => do
    let next ← combine op acc f
    if next = op.absorbing then return next else combineFrom op next fs

/-- The conjunction of a list; true for the empty list. -/
def conjAll (fs : List Ref) : Build Ref := combineFrom .conj .top fs

/-- The disjunction of a list; false for the empty list. -/
def disjAll (fs : List Ref) : Build Ref := combineFrom .disj .bot fs

/-! ### Entailment -/

namespace Store

/-- The pairs of diagrams already compared. -/
abbrev Compared := Std.HashMap (Ref × Ref) Bool

/-- `separates` with a bound on the depth of the recursion and a record of earlier answers. -/
def separatesWithin (s : Store) : Nat → Ref → Ref → StateM Compared Bool
  | 0, _, _ => pure false
  | bound + 1, a, b => do
    if a = .bot ∨ b = .top ∨ a = b then return false
    if a = .top ∨ b = .bot then return true
    if let some known := (← get)[(a, b)]? then return known
    let level := min (s.node a).level (s.node b).level
    let (aLow, aHigh) := s.cofactors a level
    let (bLow, bHigh) := s.cofactors b level
    let low ← separatesWithin s bound aLow bLow
    let result ← if low then pure true else separatesWithin s bound aHigh bHigh
    modify fun seen => seen.insert (a, b) result
    return result

/-- Whether some valuation makes `a` true and `b` false. -/
def separates (s : Store) (a b : Ref) : Bool :=
  ((s.separatesWithin (a.id + b.id + 1) a b).run ∅).1

/-- Whether every valuation that makes `model` true makes `formula` true. -/
def entails (s : Store) (model formula : Ref) : Bool := !s.separates model formula

end Store

/-- Whether some valuation makes the diagram true: every diagram but the constant false one. -/
def Ref.isSatisfiable (r : Ref) : Bool := r ≠ .bot

end Diagram
end RouteSolver
