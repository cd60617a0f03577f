/-
# JSON values

A JSON text as a tree. Records keep their fields in the order of the text, repeated ones included,
because readers of records have to notice a field given twice.

Of numbers only integers keep their value; all others are `otherNumber`. A value that is well
formed and still denotes nothing, because it has half of a surrogate pair in it or a number beyond
the range of double precision, is `unreadable`: it may stand where values are passed over, and
nowhere else.
-/

namespace RouteSolver

/-- A JSON value. -/
inductive Json where
  | null
  | bool (b : Bool)
  | natural (n : Nat)
  /-- The integer `-n`, which is not zero. -/
  | negative (n : Nat)
  /-- A number with a fraction or an exponent, or zero with a sign. -/
  | otherNumber
  | text (s : String)
  | list (items : List Json)
  | record (fields : List (String × Json))
  /-- Well formed, but denoting nothing. -/
  | unreadable
deriving Repr, Inhabited

namespace Json

mutual
/-- How deep lists and records are nested in a value, itself included. -/
def depth : Json → Nat
  | list items => depthOfItems items + 1
  | record fields => depthOfFields fields + 1
  | null | bool _ | natural _ | negative _ | otherNumber | text _ | unreadable => 0

/-- The greatest depth in a list. -/
def depthOfItems : List Json → Nat
  | [] => 0
  | j :: js => max j.depth (depthOfItems js)

/-- The greatest depth among some fields. -/
def depthOfFields : List (String × Json) → Nat
  | [] => 0
  | (_, j) :: fs => max j.depth (depthOfFields fs)
end

mutual
/-- Whether every part of a value denotes something. -/
def isReadable : Json → Bool
  | list items => areReadable items
  | record fields => areReadableFields fields
  | null | bool _ | natural _ | negative _ | otherNumber | text _ => true
  | unreadable => false

/-- Whether all items of a list are readable. -/
def areReadable : List Json → Bool
  | [] => true
  | j :: js => j.isReadable && areReadable js

/-- Whether all fields are readable. -/
def areReadableFields : List (String × Json) → Bool
  | [] => true
  | (_, j) :: fs => j.isReadable && areReadableFields fs
end

/-- How deep a text may nest lists and records where they are looked at. -/
def depthLimit : Nat := 127

end Json
end RouteSolver
