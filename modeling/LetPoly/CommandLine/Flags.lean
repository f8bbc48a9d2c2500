import LetPoly.Log.Basic
import LetPoly.Text.Integer
import LetPoly.Text.Quoted
import LetPoly.Text.Record

/-!
# Flags

The flags of the `check` command. A flag has a name, written behind two dashes, and perhaps a
letter, written behind one dash; letters may be put together. Flags and arguments may be mixed, and
two dashes alone end the flags. The value of a flag follows an equals sign, or is the next
argument; behind a letter it may also follow at once. Switches need no value.

## Main definitions

* `Flag`: the flags.
* `Options`, `Options.set`: their values.
* `FlagError`, `FlagError.message`: what is wrong with the flags.
* `parseFlags`: the values of the flags and the arguments.
-/

namespace LetPoly.CommandLine

/-! ### Flags and values -/

/-- The flags. -/
inductive Flag where
  | annotate
  | help
  | logLevel
  | logSections
  deriving DecidableEq, Repr

namespace Flag

def name : Flag → String
  | .annotate => "annotate"
  | .help => "help"
  | .logLevel => "log-level"
  | .logSections => "log-sections"

def letter? : Flag → Option Char
  | .annotate => some 'a'
  | .help => some 'h'
  | .logLevel => some 'l'
  | .logSections => none

/-- Is the flag a switch, which may stand without a value? -/
def isSwitch : Flag → Bool
  | .annotate | .help => true
  | .logLevel | .logSections => false

/-- A flag in messages. -/
def title (f : Flag) : String :=
  match f.letter? with
  | some c => "-" ++ c.toString ++ ", --" ++ f.name
  | none => "--" ++ f.name

def all : List Flag := [.annotate, .help, .logLevel, .logSections]

def ofName? (name : String) : Option Flag :=
  all.find? fun f => f.name = name

def ofLetter? (c : Char) : Option Flag :=
  all.find? fun f => f.letter? = some c

end Flag

/-- The values of the flags. -/
structure Options where
  annotate : Bool := false
  help : Bool := false
  level : Log.Level := Log.Level.error
  sections : List String := ["infer", "unify"]
  /-- Have sections been given, so that more of them are added? -/
  sectionsGiven : Bool := false

/-- What the log settings are. -/
def Options.settings (o : Options) : Log.Settings :=
  { level := o.level, sections := o.sections }

/-! ### Errors -/

/-- What is wrong with a value. -/
inductive ValueError where
  | notSwitch (text : String)
  | notInteger (text : String) (e : Text.IntegerError)
  | notRecord (e : Text.RecordError)
  deriving DecidableEq, Repr

/-- The wording of the error. -/
def ValueError.message : ValueError → String
  | .notSwitch text =>
    "strconv.ParseBool: parsing " ++ Text.quote text ++ ": " ++
      Text.IntegerError.syntaxError.message
  | .notInteger text e => "strconv.ParseInt: parsing " ++ Text.quote text ++ ": " ++ e.message
  | .notRecord e => e.message

/-- What is wrong with the flags. -/
inductive FlagError where
  /-- Two dashes are not followed by a name. -/
  | badSyntax (argument : String)
  | unknownName (name : String)
  /-- No flag has the letter at the start of some letters. -/
  | unknownLetter (letter : Char) (letters : String)
  | missingValue (argument : String)
  | missingLetterValue (letter : Char) (letters : String)
  | badValue (flag : Flag) (value : String) (e : ValueError)
  deriving DecidableEq, Repr

/-- A letter in single quotes. Of a character beyond ASCII the first octet of its encoding is
shown. -/
def quoteLetter (c : Char) : String :=
  let shown := Char.ofNat ((c.toString.toUTF8.toList.head?.getD 0).toNat)
  let text := if shown = '\'' then "\\'" else if shown = '"' then "\"" else Text.escapeChar shown
  "'" ++ text ++ "'"

/-- The wording of an error. -/
def FlagError.message : FlagError → String
  | .badSyntax argument => "bad flag syntax: " ++ argument
  | .unknownName name => "unknown flag: --" ++ name
  | .unknownLetter c letters =>
    "unknown shorthand flag: " ++ quoteLetter c ++ " in -" ++ letters
  | .missingValue argument => "flag needs an argument: " ++ argument
  | .missingLetterValue c letters =>
    "flag needs an argument: " ++ quoteLetter c ++ " in -" ++ letters
  | .badValue flag value e =>
    "invalid argument " ++ Text.quote value ++ " for " ++ Text.quote flag.title ++ " flag: " ++
      e.message

/-! ### Setting flags -/

/-- The position of a switch. -/
def switchValue? (text : String) : Option Bool :=
  if ["1", "t", "T", "true", "TRUE", "True"].contains text then some true
  else if ["0", "f", "F", "false", "FALSE", "False"].contains text then some false
  else none

/-- The sections that a value lists; the empty value lists none. -/
def sectionsValue (text : String) : Except Text.RecordError (List String) :=
  if text.isEmpty then .ok [] else Text.record text

/-- The options with a flag set to a value. -/
def Options.setValue (o : Options) (flag : Flag) (value : String) : Except ValueError Options :=
  match flag with
  | .annotate =>
    match switchValue? value with
    | some b => .ok { o with annotate := b }
    | none => .error (.notSwitch value)
  | .help =>
    match switchValue? value with
    | some b => .ok { o with help := b }
    | none => .error (.notSwitch value)
  | .logLevel =>
    match Text.signedLiteral value.toList with
    | .ok n => .ok { o with level := n }
    | .error e => .error (.notInteger value e)
  | .logSections =>
    match sectionsValue value with
    | .ok names =>
      let sections := if o.sectionsGiven then o.sections ++ names else names
      .ok { o with sections, sectionsGiven := true }
    | .error e => .error (.notRecord e)

/-- The options with a flag set to a value. -/
def Options.set (o : Options) (flag : Flag) (value : String) : Except FlagError Options :=
  match o.setValue flag value with
  | .ok o => .ok o
  | .error e => .error (.badValue flag value e)

/-! ### Arguments -/

/-- Reads a flag by its name, with the two dashes before it, and takes its value from the next
argument if it has to. -/
def byName (o : Options) (argument : String) (next : List String) :
    Except FlagError (Options × List String) :=
  let text := argument.toList.drop 2
  if text.head?.all fun c => c = '-' || c = '=' then .error (.badSyntax argument)
  else
    let name := String.ofList (text.takeWhile (· ≠ '='))
    match Flag.ofName? name with
    | none => .error (.unknownName name)
    | some flag =>
      match text.dropWhile (· ≠ '='), flag.isSwitch, next with
      | _ :: value, _, _ => return (← o.set flag (String.ofList value), next)
      | [], true, _ => return (← o.set flag "true", next)
      | [], false, value :: next => return (← o.set flag value, next)
      | [], false, [] => .error (.missingValue argument)

/-- Reads flags by their letters, and takes a value from the next argument if it has to. Letters
that start a word for test tools are passed over. -/
def byLetters (o : Options) : List Char → List String → Except FlagError (Options × List String)
  | [], next => .ok (o, next)
  | c :: cs, next =>
    if "test.".toList.isPrefixOf (c :: cs) then .ok (o, next)
    else
      match Flag.ofLetter? c with
      | none => .error (.unknownLetter c (String.ofList (c :: cs)))
      | some flag =>
        match cs, flag.isSwitch, next with
        | '=' :: d :: ds, _, _ => return (← o.set flag (String.ofList (d :: ds)), next)
        | cs, true, _ => do byLetters (← o.set flag "true") cs next
        | d :: ds, false, _ => return (← o.set flag (String.ofList (d :: ds)), next)
        | [], false, value :: next => return (← o.set flag value, next)
        | [], false, [] => .error (.missingLetterValue c (String.ofList [c]))

/-- Reads at most `fuel` arguments, with the options and the arguments so far. -/
def parseFrom : (fuel : Nat) → Options → List String → List String →
    Except FlagError (Options × List String)
  | 0, o, read, _ => .ok (o, read)
  | _, o, read, [] => .ok (o, read)
  | fuel + 1, o, read, argument :: next =>
    match argument.toList with
    | ['-', '-'] => .ok (o, read ++ next)
    | '-' :: '-' :: _ => do
      let (o, next) ← byName o argument next
      parseFrom fuel o read next
    | '-' :: c :: cs => do
      let (o, next) ← byLetters o (c :: cs) next
      parseFrom fuel o read next
    | _ => parseFrom fuel o (read ++ [argument]) next

/-- The values of the flags among some arguments, and the other arguments. -/
def parseFlags (arguments : List String) : Except FlagError (Options × List String) :=
  parseFrom arguments.length {} [] arguments

end LetPoly.CommandLine
