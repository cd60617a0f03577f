/-
# The program

Reads the file that the command line names, prints what the command says, and ends with the exit
code of the outcome.
-/

import RouteSolver.CommandLine

open RouteSolver

/-- Run the program. -/
def main (words : List String) : IO UInt32 := do
  let contents ←
    match CommandLine.read words with
    | .run c =>
      try
        let bytes ← IO.FS.readBinFile c.file
        pure (some bytes.toList)
      catch _ => pure none
    | _ => pure none
  let outcome := CommandLine.outcome words fun _ => contents
  IO.print outcome.printed
  if outcome.exit = 1 then IO.eprintln "the scenario has no answer"
  if outcome.exit = 2 then IO.eprintln CommandLine.help
  return outcome.exit.toUInt32
