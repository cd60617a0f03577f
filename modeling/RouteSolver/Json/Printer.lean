/-
# Writing JSON texts

Two forms of the same text: `compact` without any white space, and `pretty` with every item and
field on a line of its own, indented by two spaces for each level.
-/

import RouteSolver.Json.Value
import RouteSolver.Text.Decimal

namespace RouteSolver
namespace Json

/-- A hexadecimal digit. -/
def hexChar (n : Nat) : Char :=
  if n < 10 then Char.ofNat (48 + n) else Char.ofNat (87 + n)

/-- A character inside a string. Quotes, backslashes and control characters are escaped. -/
def escapeChar (c : Char) : List Char :=
  match c with
  | '"' => ['\\', '"']
  | '\\' => ['\\', '\\']
  | '\x08' => ['\\', 'b']
  | '\x0c' => ['\\', 'f']
  | '\n' => ['\\', 'n']
  | '\r' => ['\\', 'r']
  | '\t' => ['\\', 't']
  | c =>
    if c.toNat < 32 then
      ['\\', 'u', '0', '0', hexChar (c.toNat / 16), hexChar (c.toNat % 16)]
    else [c]

/-- A string with its quotes. -/
def quote (s : String) : List Char := '"' :: (s.toList.flatMap escapeChar ++ ['"'])

/-- A value that is no list and no record. An unreadable value has no text of its own and is written
as nothing at all would be. -/
def scalar : Json → List Char
  | bool true => ['t', 'r', 'u', 'e']
  | bool false => ['f', 'a', 'l', 's', 'e']
  | natural n => Decimal.digits n
  | negative n => '-' :: Decimal.digits n
  | text s => quote s
  | null | otherNumber | unreadable | list _ | record _ => ['n', 'u', 'l', 'l']

mutual
/-- A value without white space. -/
def compactChars : Json → List Char
  | list items => '[' :: (compactItems items ++ [']'])
  | record fields => '\x7b' :: (compactFields fields ++ ['\x7d'])
  | null => scalar null
  | bool b => scalar (bool b)
  | natural n => scalar (natural n)
  | negative n => scalar (negative n)
  | otherNumber => scalar otherNumber
  | text s => scalar (text s)
  | unreadable => scalar unreadable

/-- Items with commas between them. -/
def compactItems : List Json → List Char
  | [] => []
  | [j] => compactChars j
  | j :: js => compactChars j ++ ',' :: compactItems js

/-- Fields with commas between them. -/
def compactFields : List (String × Json) → List Char
  | [] => []
  | [(name, j)] => quote name ++ ':' :: compactChars j
  | (name, j) :: fs => quote name ++ ':' :: (compactChars j ++ ',' :: compactFields fs)
end

/-- The text of a value without white space. -/
def compact (j : Json) : String := String.ofList j.compactChars

/-- A line break and the indentation of a level. -/
def newline (level : Nat) : List Char := '\n' :: List.replicate (2 * level) ' '

mutual
/-- A value over several lines, at a level of indentation. -/
def prettyChars (level : Nat) : Json → List Char
  | list [] => ['[', ']']
  | list items => '[' :: (prettyItems (level + 1) items ++ (newline level ++ [']']))
  | record [] => ['\x7b', '\x7d']
  | record fields => '\x7b' :: (prettyFields (level + 1) fields ++ (newline level ++ ['\x7d']))
  | null => scalar null
  | bool b => scalar (bool b)
  | natural n => scalar (natural n)
  | negative n => scalar (negative n)
  | otherNumber => scalar otherNumber
  | text s => scalar (text s)
  | unreadable => scalar unreadable

/-- Items, each on a line of its own. -/
def prettyItems (level : Nat) : List Json → List Char
  | [] => []
  | [j] => newline level ++ prettyChars level j
  | j :: js => newline level ++ (prettyChars level j ++ ',' :: prettyItems level js)

/-- Fields, each on a line of its own. -/
def prettyFields (level : Nat) : List (String × Json) → List Char
  | [] => []
  | [(name, j)] => newline level ++ (quote name ++ ':' :: ' ' :: prettyChars level j)
  | (name, j) :: fs =>
    newline level
      ++ (quote name ++ ':' :: ' ' :: (prettyChars level j ++ ',' :: prettyFields level fs))
end

/-- The text of a value over several lines. -/
def pretty (j : Json) : String := String.ofList (j.prettyChars 0)

end Json
end RouteSolver
