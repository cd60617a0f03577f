/-
# Records with known fields

How the records of the data formats are read. A record may be written with its names, in any order,
or as the list of its values in the order of the names; a list may end early where the missing
fields have defaults. A known name given twice is refused, an unknown one only where the format is
closed. `Slot` says what was found for a field, and `required`, `optional` and `withDefault` turn it
into a value.

An alternative is tagged by one field: `tagged` separates the tag from the rest. Texts of
enumerations may also be written as a record with the word as its only name and nothing in it.
-/

import RouteSolver.Json.Value

namespace RouteSolver
namespace Json

/-- What was found for a field. -/
inductive Slot where
  /-- A value. -/
  | given (j : Json)
  /-- The record has no such name. -/
  | absent
  /-- The list ends before the field. -/
  | cutOff

namespace Slot

/-- A field that has to be there. -/
def required {α : Type} (slot : Slot) (read? : Json → Option α) : Option α :=
  match slot with
  | given j => read? j
  | absent | cutOff => none

/-- A field that may be null, or absent from a record. -/
def optional {α : Type} (slot : Slot) (read? : Json → Option α) : Option (Option α) :=
  match slot with
  | given .null => some none
  | given j => (read? j).map some
  | absent => some none
  | cutOff => none

/-- A field with a default. -/
def withDefault {α : Type} (slot : Slot) (default : α) (read? : Json → Option α) : Option α :=
  match slot with
  | given j => read? j
  | absent | cutOff => some default

end Slot

/-- The fields of a record in the order of `names`. With `closed`, no other name is admitted. -/
def slots (names : List String) (closed : Bool) : Json → Option (List Slot)
  | record fields =>
    let found := (fields.map (·.1)).filter names.contains
    if !decide found.Nodup || (closed && found.length != fields.length) then none
    else some (names.map fun name =>
      match fields.lookup name with
      | some j => .given j
      | none => .absent)
  | list items =>
    if items.length ≤ names.length then
      some (items.map Slot.given ++ List.replicate (names.length - items.length) Slot.cutOff)
    else none
  | _ => none

/-- The alternative that a value is tagged with, and the value without its tag. A tag is a word, or
with `byNumber` also the position of the word. -/
def tagged (tag : String) (words : List String) (byNumber : Bool) (j : Json) :
    Option (String × Json) :=
  let word? : Json → Option String
    | text s => if words.contains s then some s else none
    | natural n => if byNumber then words[n]? else none
    | _ => none
  match j with
  | record fields =>
    match fields.partition (·.1 == tag) with
    | ([(_, t)], rest) => (word? t).map fun w => (w, record rest)
    | _ => none
  | list (t :: rest) => (word? t).map fun w => (w, list rest)
  | _ => none

/-- One of some words, alone or as the only name of a record that holds null, or with `lax` an empty
record. -/
def oneOf {α : Type} (words : List (String × α)) (lax : Bool) : Json → Option α
  | text s => words.lookup s
  | record [(s, null)] => words.lookup s
  | record [(s, record [])] => if lax then words.lookup s else none
  | _ => none

/-- A text. -/
def text? : Json → Option String
  | text s => some s
  | _ => none

/-- A natural number of at most `max`. -/
def natural? (max : Nat) : Json → Option Nat
  | natural n => if n ≤ max then some n else none
  | _ => none

/-- A number of 32 bits. -/
def word32? (j : Json) : Option UInt32 := (j.natural? 4294967295).map UInt32.ofNat

/-- A number of 8 bits. -/
def word8? (j : Json) : Option UInt8 := (j.natural? 255).map UInt8.ofNat

/-- A list of values of one kind. -/
def listOf? {α : Type} (read? : Json → Option α) : Json → Option (List α)
  | list items => items.mapM read?
  | _ => none

/-- Null for nothing. -/
def ofOption {α : Type} (write : α → Json) : Option α → Json
  | some a => write a
  | none => null

/-- A number as a value. -/
def ofWord32 (n : UInt32) : Json := natural n.toNat

/-- A list as a value. -/
def ofList {α : Type} (write : α → Json) (xs : List α) : Json := list (xs.map write)

end Json
end RouteSolver
