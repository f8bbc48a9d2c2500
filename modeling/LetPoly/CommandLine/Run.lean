import LetPoly.Check
import LetPoly.CommandLine.Flags
import LetPoly.Log.Trace

/-!
# The command line

The command `check` checks the program in one file. Its arguments tell which file, how much is
reported, and what is logged.

## Main definitions

* `CommandLine.Request`, `CommandLine.parse`: what is asked for.
* `CommandLine.Answer`, `CommandLine.answerCheck`: the lines that are printed and logged.
-/

namespace LetPoly.CommandLine

/-- What the arguments ask for. -/
inductive Request where
  /-- The usage of the command line. -/
  | usage
  /-- A report on the program in a file. -/
  | check (path : String) (options : Options)

/-- Why a command gives no report. -/
inductive CommandError where
  | flag (e : FlagError)
  /-- Some other number of arguments is given than one. -/
  | argumentCount (given : Nat)
  | check (e : CheckError)

/-- The wording of an error. -/
def CommandError.message : CommandError → String
  | .flag e => e.message
  | .argumentCount given => "accepts 1 arg(s), received " ++ toString given
  | .check e => e.message

/-- What the arguments of `check` ask for. -/
def parseCheck (arguments : List String) : Except CommandError Request :=
  match parseFlags arguments with
  | .error e => .error (.flag e)
  | .ok (options, read) =>
    if options.help then .ok .usage
    else
      match read with
      | [path] => .ok (.check path options)
      | _ => .error (.argumentCount read.length)

/-- What the arguments ask for; without a command they ask for the usage. -/
def parse : List String → Except CommandError Request
  | "check" :: arguments => parseCheck arguments
  | _ => .ok .usage

/-- The lines that are printed and logged, and the error, if there is one. -/
structure Answer where
  lines : List String := []
  log : List String := []
  error : Option CommandError := none

/-- How the command line is used. -/
def usageLines : List String :=
  ["Usage:",
   "  check FILE [flags]",
   "",
   "Flags:",
   "  -a, --annotate               print the type of every binding and application",
   "  -h, --help                   print the usage",
   "  -l, --log-level LEVEL        log level",
   "      --log-sections SECTIONS  sections which may log below warn"]

/-- The answer to a request, where `program` is what was loaded from the file. -/
def answerCheck (palette : Palette) (path : String) (options : Options)
    (program : Except LoadError Program) : Answer :=
  let report := LetPoly.check palette path options.annotate program
  let log := (Log.traceLines options.settings none report.trace).shared
  match report.result with
  | .ok lines => { lines, log }
  | .error e => { log, error := some (.check e) }

end LetPoly.CommandLine
