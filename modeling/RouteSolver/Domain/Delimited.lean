/-
# Delimited texts and router patterns

Inside automata a standard community is the text `^high:low$`, an AS path the text `^^n n … n$`. The
marks at the ends make the anchors of router patterns ordinary characters, so that searching needs
no looking around.

`expandFrom` spells a router pattern out for these texts. Outside brackets `^` becomes the start
mark, `$` the end mark, `_` any mark or a space, and `.` any character but the marks; a negated
class excludes the marks as well. The result, with anything before and after it, is matched as a
whole: the expanded pattern is placed between two `.*` as it stands, so an alternative at its top
level takes only one of them.
-/

import RouteSolver.Community
import RouteSolver.Regex.Meaning

namespace RouteSolver
namespace Delimited

/-- The mark at the start of a community. -/
def communityStart : String := "^"

/-- The mark at the start of an AS path. -/
def asPathStart : String := "^^"

/-- The mark at the end of both. -/
def endMark : String := "$"

/-- The text of a standard community with its marks. -/
def ofCommunity (c : StandardCommunity) : String := communityStart ++ c.text ++ endMark

/-! ### All texts -/

section
open Regex

/-- One of the given ASCII characters. -/
def anyOf (ranges : List (UInt8 × UInt8)) : Expr := .byte (.ofRanges ranges)

/-- A text read as it is. -/
def exactText (s : String) : Expr := .literal (Utf8.bytes s)

/-- A decimal number without leading zeros, whose digits after the first are as `more` says. -/
def numeral (more : Expr) : Expr :=
  .alt (exactText "0") (.cat (anyOf [(49, 57)]) more)

/-- A decimal number of at most five digits. -/
def half : Expr := numeral ((anyOf [(48, 57)]).atMost 4)

/-- A decimal number. -/
def asNumber : Expr := numeral (.star (anyOf [(48, 57)]))

/-- Every text `^A:B$` with decimal numbers of at most five digits; numbers above 16 bits are among
them. -/
def communityExpr : Expr :=
  .seq [exactText communityStart, half, exactText ":", half, exactText endMark]

/-- Every text `^^$` or `^^N N … N$` with decimal numbers. -/
def asPathExpr : Expr :=
  .seq [exactText asPathStart,
    .optional (.cat asNumber (.star (.cat (exactText " ") asNumber))), exactText endMark]

end

/-- The automaton of all delimited communities. -/
def allCommunities : Automaton := .ofExpr communityExpr

/-- The automaton of all delimited AS paths. -/
def allAsPaths : Automaton := .ofExpr asPathExpr

/-! ### Router patterns -/

/-- Where `expandFrom` is in a pattern. -/
inductive Place where
  /-- Outside brackets. -/
  | outside
  /-- Right after an opening bracket. -/
  | bracketStart
  /-- Right after an opening bracket and the sign of negation. -/
  | negatedStart
  /-- Inside brackets. -/
  | bracket (negated : Bool)
deriving DecidableEq, Repr

/-- What one character inside brackets becomes, and whether the bracket goes on. -/
def insideBracket (negated : Bool) (c : Char) : List Char × Place :=
  if c = ']' then ((if negated then ['\\', '^', '\\', '$'] else []) ++ [']'], .outside)
  else ([c], .bracket negated)

/-- What one character becomes, and where it leads. -/
def expandChar (start delimiter : List Char) : Place → Char → List Char × Place
  | .outside, c =>
    match c with
    | '[' => (['['], .bracketStart)
    | '^' => (start, .outside)
    | '$' => (['\\', '$'], .outside)
    | '_' => (delimiter, .outside)
    | '.' => (['[', '^', '\\', '^', '\\', '$', ']'], .outside)
    | c => ([c], .outside)
  | .bracketStart, c =>
    if c = '^' then (['^'], .negatedStart)
    else if c = ']' then (['\\', ']'], .bracket false)
    else insideBracket false c
  | .negatedStart, c =>
    if c = ']' then (['\\', ']'], .bracket true) else insideBracket true c
  | .bracket negated, c => insideBracket negated c

/-- Where a bracket goes on after an escape. -/
def Place.afterEscape : Place → Place
  | .outside => .outside
  | .bracketStart => .bracket false
  | .negatedStart => .bracket true
  | .bracket negated => .bracket negated

/-- A router pattern spelled out. A backslash keeps the character after it as it is, inside brackets
too. -/
def expandFrom (start delimiter : List Char) : Place → List Char → List Char
  | _, [] => []
  | place, '\\' :: c :: cs => '\\' :: c :: expandFrom start delimiter place.afterEscape cs
  | _, ['\\'] => ['\\']
  | place, c :: cs =>
    let (out, place) := expandChar start delimiter place c
    out ++ expandFrom start delimiter place cs

/-- The pattern of all texts that contain a match of a router pattern. -/
def searchPattern (start delimiter : String) (pattern : String) : String :=
  ".*" ++ String.ofList (expandFrom start.toList delimiter.toList .outside pattern.toList)
    ++ ".*"

/-- The search pattern over communities. -/
def communityPattern (pattern : String) : String :=
  searchPattern "\\^" "(?:\\^|\\$| )" pattern

/-- The search pattern over AS paths. -/
def asPathPattern (pattern : String) : String :=
  searchPattern "\\^\\^" "(?:\\^\\^| |\\$)" pattern

/-- The delimited communities that contain a match of a router pattern. -/
def matchingCommunities (pattern : String) : Except InvalidPattern Automaton :=
  (Automaton.ofPattern (communityPattern pattern)).map (·.inter allCommunities)

/-- The delimited AS paths that contain a match of a router pattern. -/
def matchingAsPaths (pattern : String) : Except InvalidPattern Automaton :=
  (Automaton.ofPattern (asPathPattern pattern)).map (·.inter allAsPaths)

/-- The language of one community. -/
def onlyCommunity (c : StandardCommunity) : Automaton := .ofText (ofCommunity c)

end Delimited
end RouteSolver
