/-
# Escapes

What may follow a backslash: a character with a meaning of its own or without one, a class with a
letter of its own, an anchor, or the number of a character in hexadecimal digits. The digits are
two, four or eight after the letters for it, or any number in braces.

With the verbose mode on, white space and comments may stand between the parts of an escape, but
not directly after the backslash. Whoever reads on skips them first.
-/

import RouteSolver.Regex.Tree
import RouteSolver.Text.Blank

namespace RouteSolver
namespace Regex

/-- Drop white space and comments, which begin at a number sign and end with the line. -/
def skipBlanks (inComment : Bool) : List Char → List Char
  | [] => []
  | c :: cs =>
    if inComment then skipBlanks (c ≠ '\n') cs
    else if isBlank c then skipBlanks false cs
    else if c = '#' then skipBlanks true cs
    else c :: cs

/-- What comes next in a pattern: in verbose mode white space and comments are nothing. -/
def ahead (verbose : Bool) (cs : List Char) : List Char :=
  if verbose then skipBlanks false cs else cs

/-- The value of a hexadecimal digit. -/
def hexDigit? (c : Char) : Option Nat :=
  if '0' ≤ c ∧ c ≤ '9' then some (c.toNat - '0'.toNat)
  else if 'a' ≤ c ∧ c ≤ 'f' then some (c.toNat - 'a'.toNat + 10)
  else if 'A' ≤ c ∧ c ≤ 'F' then some (c.toNat - 'A'.toNat + 10)
  else none

/-- The character with a number, if there is one. -/
def charOf? (n : Nat) : Option Char := if n.isValidChar then some (Char.ofNat n) else none

/-- Exactly `n` hexadecimal digits after those of `acc`. -/
def hexDigits (verbose : Bool) : Nat → Nat → List Char → Option (Nat × List Char)
  | 0, acc, cs => some (acc, cs)
  | n + 1, acc, c :: cs => do
    let d ← hexDigit? c
    hexDigits verbose n (acc * 16 + d) (ahead verbose cs)
  | _ + 1, _, [] => none

/-- Hexadecimal digits up to the closing brace; `acc` is what the digits before them say. At most
`bound` characters are looked at. -/
def bracedDigits (verbose : Bool) : Nat → Option Nat → List Char → Option (Nat × List Char)
  | 0, _, _ => none
  | bound + 1, acc, cs =>
    match ahead verbose cs with
    | [] => none
    | c :: rest =>
      if c = '}' then acc.map fun n => (n, ahead verbose rest)
      else do
        let d ← hexDigit? c
        bracedDigits verbose bound (some (acc.getD 0 * 16 + d)) rest

/-- A character by its number, after the letter that announces `n` digits. Only two digits without
braces stand for a byte. -/
def hexLiteral (verbose : Bool) (n : Nat) (cs : List Char) : Option (Literal × List Char) := do
  match ahead verbose cs with
  | '{' :: rest =>
    let (code, rest) ← bracedDigits verbose (rest.length + 1) none rest
    let c ← charOf? code
    return (⟨c, false⟩, rest)
  | digits =>
    let (code, rest) ← hexDigits verbose n 0 digits
    let c ← charOf? code
    return (⟨c, n = 2⟩, rest)

/-- What can stand alone in a pattern, outside and inside brackets. -/
inductive Primitive where
  | literal (l : Literal)
  | anchor (a : Anchor)
  | dot
  | short (c : ShortClass) (negated : Bool)
deriving DecidableEq, Repr

/-- The characters of the names of word boundaries. -/
def isBoundaryChar (c : Char) : Bool := c.isAlpha || c = '-'

/-- The name in braces after a word boundary, up to the first other character. -/
def boundaryName (verbose : Bool) : Nat → List Char → List Char × List Char
  | 0, cs => ([], cs)
  | bound + 1, cs =>
    match cs with
    | c :: rest =>
      if isBoundaryChar c then
        let (name, rest) := boundaryName verbose bound (ahead verbose rest)
        (c :: name, rest)
      else ([], cs)
    | [] => ([], [])

/-- A word boundary, and what braces after it make of it. Braces that do not begin with a letter or
a dash belong to a repetition and are left alone. -/
def wordBoundary (verbose : Bool) (cs : List Char) : Option (Anchor × List Char) :=
  match cs with
  | '{' :: rest =>
    match ahead verbose rest with
    | [] => none
    | c :: inner =>
      if !isBoundaryChar c then some (.wordBoundary, cs)
      else
        match boundaryName verbose (inner.length + 2) (c :: inner) with
        | (name, '}' :: rest) =>
          if name = "start".toList then some (.wordStart, rest)
          else if name = "end".toList then some (.wordEnd, rest)
          else if name = "start-half".toList then some (.wordStartHalf, rest)
          else if name = "end-half".toList then some (.wordEndHalf, rest)
          else none
        | _ => none
  | _ => some (.wordBoundary, cs)

/-- Whether a backslash before the character makes it stand for itself: every ASCII character does,
except letters, digits and angle brackets. -/
def standsForItself (c : Char) : Bool :=
  c.toNat < 128 && !c.isAlphanum && c ≠ '<' && c ≠ '>'

/-- What follows a backslash. -/
def escape (verbose : Bool) : List Char → Option (Primitive × List Char)
  | [] => none
  | c :: cs =>
    let special (code : Nat) : Option (Primitive × List Char) :=
      some (.literal ⟨Char.ofNat code, false⟩, cs)
    let anchor (a : Anchor) : Option (Primitive × List Char) := some (.anchor a, cs)
    match c with
    | 'x' => (hexLiteral verbose 2 cs).map fun r => (.literal r.1, r.2)
    | 'u' => (hexLiteral verbose 4 cs).map fun r => (.literal r.1, r.2)
    | 'U' => (hexLiteral verbose 8 cs).map fun r => (.literal r.1, r.2)
    | 'd' => some (.short .digit false, cs)
    | 's' => some (.short .space false, cs)
    | 'w' => some (.short .word false, cs)
    | 'D' => some (.short .digit true, cs)
    | 'S' => some (.short .space true, cs)
    | 'W' => some (.short .word true, cs)
    | 'a' => special 7
    | 'f' => special 12
    | 't' => special 9
    | 'n' => special 10
    | 'r' => special 13
    | 'v' => special 11
    | 'A' => anchor .textStart
    | 'z' => anchor .textEnd
    | 'b' => (wordBoundary verbose cs).map fun r => (.anchor r.1, r.2)
    | 'B' => anchor .notWordBoundary
    | '<' => anchor .wordStart
    | '>' => anchor .wordEnd
    | _ => if standsForItself c then some (.literal ⟨c, false⟩, cs) else none

end Regex
end RouteSolver
