import LetPoly.CommandLine.Run

/-!
# The program

Reads the file that the arguments name, and prints the report and the log.

## Main definitions

* `main`: the entry point.
-/

namespace LetPoly.CommandLine

/-- The program in a file. -/
def loadFile (path : String) : IO (Except LoadError Program) := do
  try
    return Program.parse (← IO.FS.readFile path)
  catch e =>
    match e with
    | .noFileOrDirectory .. => return .error (.unopened path "no such file or directory")
    | .permissionDenied .. => return .error (.unopened path "permission denied")
    | e => return .error (.unread (toString e))

/-- Prints an answer, and gives the exit code. -/
def printAnswer (palette : Palette) (a : Answer) : IO UInt32 := do
  for line in a.log do
    IO.eprintln line
  for line in a.lines do
    IO.println line
  match a.error with
  | some e =>
    IO.eprintln (palette.red "error: " ++ e.message)
    return 1
  | none => return 0

/-- Answers the given arguments in plain text. -/
def run (arguments : List String) : IO UInt32 := do
  let palette : Palette := {}
  match parse arguments with
  | .error e => printAnswer palette { error := some e }
  | .ok .usage => printAnswer palette { lines := usageLines }
  | .ok (.check path options) =>
    printAnswer palette (answerCheck palette path options (← loadFile path))

end LetPoly.CommandLine

/-- Runs the command line. -/
def main (arguments : List String) : IO UInt32 :=
  LetPoly.CommandLine.run arguments
