/-
# The command line

The words of a command line are read from the left, and the first word that does not fit decides:
`Command.ofWords` gives a command, a text to print, or nothing for a usage error. `Command.run` says
what a command prints for the contents of its file, or nothing if it fails.
-/

import RouteSolver.Json.Printer
import RouteSolver.Scenario.Json
import RouteSolver.Witness.Report

namespace RouteSolver

/-- How a witness is printed. -/
inductive OutputFormat where
  | text
  | json
deriving DecidableEq, Repr

/-- What is to be done with a scenario file. -/
inductive Command where
  /-- Find a witness. -/
  | witness (file : String) (steered : Bool) (format : OutputFormat)
  /-- List the predicates of the domain. -/
  | domains (file : String)
deriving DecidableEq, Repr

/-- What the words of a command line ask for. -/
inductive Request where
  /-- A command. -/
  | run (c : Command)
  /-- A text to print. -/
  | print (text : String)
  /-- Nothing: the words do not fit. -/
  | usageError
deriving DecidableEq, Repr

namespace CommandLine

/-- Name and version of the program. -/
def version : String := "routewit 0.1.0\n"

/-- Help on the program. -/
def help : String :=
  "Find concrete routes that satisfy symbolic route constraints\n\n"
    ++ "Usage: routewit <COMMAND>\n\n"
    ++ "Commands:\n"
    ++ "  witness  Search for a route and environment satisfying a scenario\n"
    ++ "  domains  List the atomic predicates a scenario's domains split into\n"
    ++ "  help     Print this message or the help of the given subcommand(s)\n\n"
    ++ "Options:\n"
    ++ "  -h, --help     Print help\n"
    ++ "  -V, --version  Print version\n"

/-- Help on finding a witness. -/
def witnessHelp : String :=
  "Search for a route and environment satisfying a scenario\n\n"
    ++ "Usage: routewit witness [OPTIONS] <FILE>\n\n"
    ++ "Arguments:\n"
    ++ "  <FILE>  Path to the scenario JSON file\n\n"
    ++ "Options:\n"
    ++ "      --no-bias          Take the first satisfying assignment "
    ++ "instead of preferring readable values\n"
    ++ "      --format <FORMAT>  Output format [default: text] [possible values: text, json]\n"
    ++ "  -h, --help             Print help\n"

/-- Help on listing predicates. -/
def domainsHelp : String :=
  "List the atomic predicates a scenario's domains split into\n\n"
    ++ "Usage: routewit domains <FILE>\n\n"
    ++ "Arguments:\n"
    ++ "  <FILE>  Path to the scenario JSON file\n\n"
    ++ "Options:\n"
    ++ "  -h, --help  Print help\n"

/-- Help on help. -/
def helpHelp : String :=
  "Print this message or the help of the given subcommand(s)\n\n"
    ++ "Usage: routewit help [COMMAND]...\n\n"
    ++ "Arguments:\n"
    ++ "  [COMMAND]...  Print help for the subcommand(s)\n"

/-- The words read so far of a command. -/
structure Words where
  /-- The file, once it is named. -/
  file : Option String
  /-- Whether preferences are to be left out. -/
  noBias : Bool
  /-- The format, once it is chosen. -/
  format : Option OutputFormat

/-- The format with a name. -/
def format? (name : String) : Option OutputFormat :=
  match name with
  | "text" => some .text
  | "json" => some .json
  | _ => none

/-- Whether a word is an option: it begins with a dash and is more than that. -/
def isOption (word : String) : Bool :=
  match word.toList with
  | '-' :: _ :: _ => true
  | _ => false

/-- A word as the file. There is one file, and it has a name. -/
def Words.setFile (w : Words) (file : String) : Option Words :=
  if w.file.isSome || file.isEmpty then none else some { w with file := some file }

/-- The choice of a format. It is made once. -/
def Words.setFormat (w : Words) (name : String) : Option Words :=
  if w.format.isSome then none
  else (format? name).map fun f => { w with format := some f }

/-- The file named by the words that are left, which are no options. -/
def files (w : Words) : List String → Option Words
  | [] => some w
  | word :: words => do files (← w.setFile word) words

/-- What the words of a command ask for. `options` says whether the options of finding a witness
are admitted. -/
def readWords (options : Bool) (help : String) (finish : Words → String → Command) :
    Words → List String → Request
  | w, [] =>
    match w.file with
    | some file => .run (finish w file)
    | none => .usageError
  | w, word :: words =>
    if word = "--" then
      match files w words with
      | some { file := some file, noBias, format } =>
        .run (finish ⟨some file, noBias, format⟩ file)
      | _ => .usageError
    else if word = "--help" || "-h".isPrefixOf word && word ≠ "-" then .print help
    else if options && word = "--no-bias" then
      if w.noBias then .usageError
      else readWords options help finish { w with noBias := true } words
    else if options && word = "--format" then
      match words with
      | name :: words =>
        match w.setFormat name with
        | some w => readWords options help finish w words
        | none => .usageError
      | [] => .usageError
    else if options && "--format=".isPrefixOf word then
      match w.setFormat (String.ofList (word.toList.drop 9)) with
      | some w => readWords options help finish w words
      | none => .usageError
    else if isOption word then .usageError
    else
      match w.setFile word with
      | some w => readWords options help finish w words
      | none => .usageError

/-- What follows the word that asks for help. -/
def readHelp : List String → Request
  | [] => .print help
  | ["witness"] => .print witnessHelp
  | ["domains"] => .print domainsHelp
  | ["help"] => .print helpHelp
  | _ => .usageError

/-- What a command line asks for. -/
def read : List String → Request
  | "witness" :: words =>
    readWords true witnessHelp
      (fun w file => .witness file (!w.noBias) (w.format.getD .text)) ⟨none, false, none⟩ words
  | "domains" :: words =>
    readWords false domainsHelp (fun _ file => .domains file) ⟨none, false, none⟩ words
  | "help" :: words => readHelp words
  | word :: _ =>
    if word = "--help" || "-h".isPrefixOf word then .print help
    else if word = "--version" || "-V".isPrefixOf word then .print version
    else .usageError
  | [] => .usageError

end CommandLine

namespace Command

/-- The file of a command. -/
def file : Command → String
  | witness file _ _ => file
  | domains file => file

/-- What a witness prints in a format. -/
def printed : OutputFormat → Witness → String
  | .text, w => w.report
  | .json, w => w.toJson.pretty ++ "\n"

/-- What a command prints for the contents of its file. Contents that are no text, or no scenario,
and scenarios without an answer fail. -/
def run (c : Command) (contents : List UInt8) : Option String := do
  if !Utf8.isWellFormed contents then none
  let s ← Scenario.read? (Utf8.decode contents)
  match c with
  | witness _ steered format =>
    match Witness.search s steered with
    | .ok w => return printed format w
    | .error _ => none
  | domains _ =>
    match s.allNames.domain with
    | .ok d => return d.listing
    | .error _ => none

end Command

namespace CommandLine

/-- How a run ends. -/
structure Outcome where
  /-- The exit code: 0 for success, 1 for a failure, 2 for a usage error. -/
  exit : Nat
  /-- What is printed. -/
  printed : String
deriving DecidableEq, Repr

/-- How a run with some words ends, where `contents` gives the bytes of a file that can be read. -/
def outcome (words : List String) (contents : String → Option (List UInt8)) : Outcome :=
  match read words with
  | .print text => ⟨0, text⟩
  | .usageError => ⟨2, ""⟩
  | .run c =>
    match (contents c.file).bind c.run with
    | some text => ⟨0, text⟩
    | none => ⟨1, ""⟩

end CommandLine
end RouteSolver
