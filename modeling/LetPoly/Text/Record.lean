/-!
# Records of comma-separated fields

A record is a line of fields with commas between them. A field in double quotes may hold commas,
line ends, and quotes written twice; outside of such fields no quote may stand. Empty lines before
a record are skipped, and lines after it are not looked at. Columns count octets from 1.

## Main definitions

* `Text.RecordError`, `RecordError.message`: what is wrong with a record, and where.
* `Text.record`: the fields of the first record in a text.
-/

namespace LetPoly.Text

/-- Why a text gives no record. -/
inductive RecordError where
  /-- There is no record. -/
  | missing
  /-- A quote stands in a field without quotes. -/
  | bareQuote (start line column : Nat)
  /-- A field in quotes does not end, or goes on behind its last quote. -/
  | badQuote (start line column : Nat)
  deriving DecidableEq, Repr

/-- A place in a record that starts in some line. -/
def recordPlace (start line column : Nat) : String :=
  (if start = line then "" else "record on line " ++ toString start ++ "; ") ++
    "parse error on line " ++ toString line ++ ", column " ++ toString column ++ ": "

/-- The wording of an error. -/
def RecordError.message : RecordError → String
  | .missing => "EOF"
  | .bareQuote start line column =>
    recordPlace start line column ++ "bare \" in non-quoted field"
  | .badQuote start line column =>
    recordPlace start line column ++ "extraneous or missing \" in quoted-field"

/-- Where in a record the next character stands. -/
inductive RecordState where
  /-- At the start of a field. -/
  | start
  | bare
  | quoted
  /-- Behind a quote inside of a field in quotes. -/
  | afterQuote

/-- The part of a record that was read. -/
structure RecordReader where
  /-- The line in which the record starts. -/
  first : Nat
  line : Nat
  column : Nat := 1
  state : RecordState := .start
  /-- The characters of the current field, the last one first. -/
  field : List Char := []
  /-- The fields before it, the last one first. -/
  fields : List String := []

namespace RecordReader

/-- One character on in the line, with the next one in another state. -/
def step (r : RecordReader) (c : Char) (state : RecordState) : RecordReader :=
  { r with column := r.column + c.utf8Size, state }

/-- One character more in the current field. -/
def keep (r : RecordReader) (c : Char) : RecordReader :=
  { r with field := c :: r.field }

/-- The current field has ended. -/
def endField (r : RecordReader) : RecordReader :=
  { r with field := [], fields := String.ofList r.field.reverse :: r.fields }

/-- All fields in order. -/
def finish (r : RecordReader) : List String :=
  r.endField.fields.reverse

/-- Reads on to the end of the record. -/
def run : List Char → RecordReader → Except RecordError (List String)
  | [], r =>
    match r.state with
    | .quoted => .error (.badQuote r.first r.line r.column)
    | _ => .ok r.finish
  | c :: cs, r =>
    match r.state with
    | .start =>
      if c = '"' then run cs (r.step c .quoted)
      else if c = ',' then run cs (r.endField.step c .start)
      else if c = '\n' then .ok r.finish
      else run cs ((r.keep c).step c .bare)
    | .bare =>
      if c = '"' then .error (.bareQuote r.first r.line r.column)
      else if c = ',' then run cs (r.endField.step c .start)
      else if c = '\n' then .ok r.finish
      else run cs ((r.keep c).step c .bare)
    | .quoted =>
      if c = '"' then run cs (r.step c .afterQuote)
      else if c = '\n' && !cs.isEmpty then
        run cs { r.keep c with line := r.line + 1, column := 1 }
      else run cs ((r.keep c).step c .quoted)
    | .afterQuote =>
      if c = '"' then run cs ((r.keep c).step c .quoted)
      else if c = ',' then run cs (r.endField.step c .start)
      else if c = '\n' then .ok r.finish
      else .error (.badQuote r.first r.line (r.column - 1))

end RecordReader

/-- The text with a line feed for a carriage return before one, and without a carriage return at its
end. -/
def plainLineEnds : List Char → List Char
  | [] => []
  | ['\r'] => []
  | '\r' :: '\n' :: cs => '\n' :: plainLineEnds cs
  | c :: cs => c :: plainLineEnds cs

/-- The fields of the first record in a text. -/
def record (text : String) : Except RecordError (List String) :=
  let chars := plainLineEnds text.toList
  let skipped := chars.takeWhile (· = '\n')
  match chars.dropWhile (· = '\n') with
  | [] => .error .missing
  | cs => RecordReader.run cs { first := skipped.length + 1, line := skipped.length + 1 }

end LetPoly.Text
