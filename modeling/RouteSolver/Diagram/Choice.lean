/-
# Choices: one variable per alternative

`atMostOne` and `exactlyOne` count how many of a list of diagrams hold. A `Choice` encodes a value
of a finite type by one variable per alternative, of which a proper model sets exactly one.
-/

import RouteSolver.Diagram.Basic

namespace RouteSolver
namespace Diagram

/-- "At most one more holds": `noneYet` says that none held before, `within` that at most one
did. -/
def atMostOneFrom (noneYet within : Ref) : List Ref → Build Ref
  | [] => pure within
  | f :: fs => do
    let clear ← neg f
    let skipped ← conj clear within
    let taken ← conj f noneYet
    let within ← disj skipped taken
    let noneYet ← conj noneYet clear
    atMostOneFrom noneYet within fs

/-- "At most one of the list holds." -/
def atMostOne (fs : List Ref) : Build Ref := atMostOneFrom .top .top fs

/-- "Exactly one of the list holds"; false for the empty list. -/
def exactlyOne (fs : List Ref) : Build Ref := do
  let few ← atMostOne fs
  let present ← disjAll fs
  conj few present

/-- A value of a finite type, one variable per alternative. -/
structure Choice (α : Type) where
  /-- The alternatives. -/
  alternatives : List α
  /-- The variable of each alternative, in the same order. -/
  selectors : List Ref
  /-- What is read off a model that selects no alternative. -/
  fallback : α
deriving DecidableEq, Repr

namespace Choice

variable {α : Type} [DecidableEq α]

/-- Lay the alternatives out over consecutive variables from `first` on. -/
def layOut (first : Nat) (alternatives : List α) (fallback : α) : Build (Choice α) := do
  let selectors ← (List.range' first alternatives.length).mapM positive
  return ⟨alternatives, selectors, fallback⟩

/-- The literals that select position `i`: its variable, and the negation of every other one. -/
def literals : Nat → List Ref → Build (List Ref)
  | _, [] => pure []
  | 0, x :: xs => do
    let rest ← xs.mapM neg
    return x :: rest
  | i + 1, x :: xs => do
    let clear ← neg x
    let rest ← literals i xs
    return clear :: rest

/-- "The choice is `a`"; false for a value that is no alternative. -/
def eq (c : Choice α) (a : α) : Build Ref := do
  match c.alternatives.idxOf? a with
  | none => return .bot
  | some i => conjAll (← literals i c.selectors)

/-- "At most one alternative is selected." -/
def atMostOne (c : Choice α) : Build Ref := Diagram.atMostOne c.selectors

/-- "Exactly one alternative is selected." -/
def exactlyOne (c : Choice α) : Build Ref := Diagram.exactlyOne c.selectors

omit [DecidableEq α] in
/-- The first alternative whose variable the model entails, else the fallback. -/
def valueUnder (c : Choice α) (s : Store) (model : Ref) : α :=
  match (c.alternatives.zip c.selectors).find? (fun (_, x) => s.entails model x) with
  | some (a, _) => a
  | none => c.fallback

end Choice
end Diagram
end RouteSolver
