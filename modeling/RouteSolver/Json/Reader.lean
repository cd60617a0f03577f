/-
# Reading JSON texts

A strict reader: one value, white space around it, and nothing more. It descends into the value,
and every call takes a character of the text, so the length of the text bounds the descent.
-/

import RouteSolver.Json.Value
import RouteSolver.Text.Decimal

namespace RouteSolver
namespace Json
namespace Reader

/-- White space between the parts of a text. -/
def isSpace (c : Char) : Bool := c = ' ' || c = '\t' || c = '\n' || c = '\r'

/-- The text from the next character that is not white space. -/
def skipSpace (cs : List Char) : List Char := cs.dropWhile isSpace

/-! ### Strings -/

/-- A character of a string, or half of a surrogate pair that an escape gives. -/
inductive Piece where
  | char (c : Char)
  | half (unit : Nat)
deriving Repr

/-- The value of a hexadecimal digit. -/
def hexDigit? (c : Char) : Option Nat :=
  if '0' ≤ c ∧ c ≤ '9' then some (c.toNat - 48)
  else if 'a' ≤ c ∧ c ≤ 'f' then some (c.toNat - 87)
  else if 'A' ≤ c ∧ c ≤ 'F' then some (c.toNat - 55)
  else none

/-- The piece that four hexadecimal digits give. -/
def hexPiece (a b c d : Char) : Option Piece := do
  let unit := (((← hexDigit? a) * 16 + (← hexDigit? b)) * 16 + (← hexDigit? c)) * 16
    + (← hexDigit? d)
  if 0xD800 ≤ unit ∧ unit < 0xE000 then return .half unit else return .char (Char.ofNat unit)

/-- The character that a one-letter escape gives. -/
def shortEscape? (c : Char) : Option Char :=
  match c with
  | '"' => some '"'
  | '\\' => some '\\'
  | '/' => some '/'
  | 'b' => some '\x08'
  | 'f' => some '\x0c'
  | 'n' => some '\n'
  | 'r' => some '\r'
  | 't' => some '\t'
  | _ => none

/-- The pieces of a string after its opening quote, and the text after its closing one. -/
def pieces : List Char → Option (List Piece × List Char)
  | [] => none
  | '"' :: cs => some ([], cs)
  | '\\' :: 'u' :: a :: b :: c :: d :: cs => do
    let p ← hexPiece a b c d
    let (ps, rest) ← pieces cs
    return (p :: ps, rest)
  | '\\' :: c :: cs => do
    let c ← shortEscape? c
    let (ps, rest) ← pieces cs
    return (.char c :: ps, rest)
  | c :: cs =>
    if c.toNat < 32 then none
    else do
      let (ps, rest) ← pieces cs
      return (.char c :: ps, rest)

/-- The characters of some pieces: halves of surrogate pairs have to stand in pairs. -/
def join : List Piece → Option (List Char)
  | [] => some []
  | .char c :: ps => (join ps).map (c :: ·)
  | .half hi :: .half lo :: ps =>
    if hi < 0xDC00 ∧ 0xDC00 ≤ lo then
      (join ps).map (Char.ofNat (0x10000 + (hi - 0xD800) * 0x400 + (lo - 0xDC00)) :: ·)
    else none
  | .half _ :: _ => none

/-! ### Numbers -/

/-- Bound of the numbers that double precision can hold: from here on they round to infinity. -/
def rangeLimit : Nat := Nat.pow 2 1024 - Nat.pow 2 970

/-- Whether `mantissa · 10 ^ (up - down)` stays below the range limit. The number of digits settles
it without great powers, except near the limit. -/
def inRange (mantissa up down : Nat) : Bool :=
  let size := (Decimal.digits mantissa).length + up
  mantissa = 0 || size < down + 309
    || (size < down + 311
      && decide (mantissa * Nat.pow 10 (up - down) < rangeLimit * Nat.pow 10 (down - up)))

/-- A run of digits and what follows it. -/
def digitRun (cs : List Char) : List Char × List Char :=
  (cs.takeWhile Char.isDigit, cs.dropWhile Char.isDigit)

/-- The digits of a fraction, if there is one. -/
def fraction (cs : List Char) : Option (List Char × List Char) :=
  match cs with
  | '.' :: rest =>
    match digitRun rest with
    | ([], _) => none
    | r => some r
  | _ => some ([], cs)

/-- An exponent, if there is one: whether it is negative, its digits, and what follows. -/
def exponent (cs : List Char) : Option (Bool × List Char × List Char) :=
  match cs with
  | c :: rest =>
    if c = 'e' ∨ c = 'E' then
      let (minus, rest) :=
        match rest with
        | '-' :: r => (true, r)
        | '+' :: r => (false, r)
        | r => (false, r)
      match digitRun rest with
      | ([], _) => none
      | (ds, r) => some (minus, ds, r)
    else some (false, [], cs)
  | [] => some (false, [], [])

/-- A number after its sign, of which `minus` tells. Digits before the point have no superfluous
leading zero. -/
def unsigned (minus : Bool) (cs : List Char) : Option (Json × List Char) :=
  match digitRun cs with
  | ([], _) => none
  | ('0' :: _ :: _, _) => none
  | (whole, rest) => do
    let (part, rest) ← fraction rest
    let (down, power, rest) ← exponent rest
    let p := Decimal.value power
    let fits := inRange (Decimal.value (whole ++ part)) (if down then 0 else p)
      (part.length + if down then p else 0)
    let j : Json :=
      if !fits then .unreadable
      else if !part.isEmpty || !power.isEmpty then .otherNumber
      else if !minus then .natural (Decimal.value whole)
      else if Decimal.value whole = 0 then .otherNumber
      else .negative (Decimal.value whole)
    return (j, rest)

/-- A number. -/
def number (cs : List Char) : Option (Json × List Char) :=
  match cs with
  | '-' :: rest => unsigned true rest
  | _ => unsigned false cs

/-! ### Values -/

/-- A string as a value. -/
def textOf (ps : List Piece) : Json :=
  match join ps with
  | some cs => .text (String.ofList cs)
  | none => .unreadable

/-- The fields of a record as a value; a name that is no text makes the record unreadable. -/
def recordOf (fields : List (List Piece × Json)) : Json :=
  match fields.mapM fun f => (join f.1).map fun name => (String.ofList name, f.2) with
  | some fs => .record fs
  | none => .unreadable

/-- The rest of a word that is spelled out. -/
def word (w : List Char) (j : Json) (cs : List Char) : Option (Json × List Char) :=
  if w.isPrefixOf cs then some (j, cs.drop w.length) else none

mutual
/-- A value, in at most `bound` nested calls. -/
def value : Nat → List Char → Option (Json × List Char)
  | 0, _ => none
  | bound + 1, cs =>
    match skipSpace cs with
    | '"' :: rest => do
      let (ps, rest) ← pieces rest
      return (textOf ps, rest)
    | '[' :: rest =>
      match skipSpace rest with
      | ']' :: rest => some (.list [], rest)
      | _ => do
        let (items, rest) ← items bound rest
        return (.list items, rest)
    | '\x7b' :: rest =>
      match skipSpace rest with
      | '\x7d' :: rest => some (.record [], rest)
      | _ => do
        let (fields, rest) ← fields bound rest
        return (recordOf fields, rest)
    | 'n' :: rest => word ['u', 'l', 'l'] .null rest
    | 't' :: rest => word ['r', 'u', 'e'] (.bool true) rest
    | 'f' :: rest => word ['a', 'l', 's', 'e'] (.bool false) rest
    | other => number other

/-- The items of a list that is not empty, up to its closing bracket. -/
def items : Nat → List Char → Option (List Json × List Char)
  | 0, _ => none
  | bound + 1, cs => do
    let (j, rest) ← value bound cs
    match skipSpace rest with
    | ',' :: rest => do
      let (js, rest) ← items bound rest
      return (j :: js, rest)
    | ']' :: rest => return ([j], rest)
    | _ => none

/-- The fields of a record that is not empty, up to its closing brace. -/
def fields : Nat → List Char → Option (List (List Piece × Json) × List Char)
  | 0, _ => none
  | bound + 1, cs =>
    match skipSpace cs with
    | '"' :: rest => do
      let (name, rest) ← pieces rest
      match skipSpace rest with
      | ':' :: rest => do
        let (j, rest) ← value bound rest
        match skipSpace rest with
        | ',' :: rest => do
          let (fs, rest) ← fields bound rest
          return ((name, j) :: fs, rest)
        | '\x7d' :: rest => return ([(name, j)], rest)
        | _ => none
      | _ => none
    | _ => none
end

end Reader

/-- The value of a text that is one JSON value and nothing else. -/
def read? (text : String) : Option Json := do
  let cs := text.toList
  let (j, rest) ← Reader.value (2 * cs.length + 2) cs
  if (Reader.skipSpace rest).isEmpty then return j else none

end Json
end RouteSolver
