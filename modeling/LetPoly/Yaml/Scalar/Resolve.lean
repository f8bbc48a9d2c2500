import LetPoly.Text.Decimal
import LetPoly.Text.Integer
import LetPoly.Yaml.Timestamp

/-!
# What a scalar stands for

The text of a plain scalar without a tag tells its type: null, a boolean, an integer, a
floating-point number, a timestamp, or else a string.

## Main definitions

* `Yaml.Scalar`, `Scalar.ofText`: the value that a text stands for, as far as it is needed.
* `Scalar.tag`: the short name of its type.
-/

namespace LetPoly.Yaml

/-- What the text of a scalar stands for. -/
inductive Scalar where
  | null
  | bool (b : Bool)
  | int (n : Int)
  | float
  | timestamp
  | string
  deriving DecidableEq, Repr

namespace Scalar

/-- The short name of the type. -/
def tag : Scalar → String
  | .null => "!!null"
  | .bool _ => "!!bool"
  | .int _ => "!!int"
  | .float => "!!float"
  | .timestamp => "!!timestamp"
  | .string => "!!str"

/-- The words with a fixed meaning. -/
def word? (text : String) : Option Scalar :=
  if ["", "~", "null", "Null", "NULL"].contains text then some .null
  else if ["true", "True", "TRUE"].contains text then some (.bool true)
  else if ["false", "False", "FALSE"].contains text then some (.bool false)
  else if [".nan", ".NaN", ".NAN", ".inf", ".Inf", ".INF", "+.inf", "+.Inf", "+.INF", "-.inf",
      "-.Inf", "-.INF"].contains text then some .float
  else none

/-- A floating-point number in range, without its sign. -/
def isFloat (cs : List Char) : Bool :=
  (Text.Decimal.ofText? cs).any Text.Decimal.inRange

/-- The text without a sign. -/
def dropSign : List Char → List Char
  | '-' :: cs | '+' :: cs => cs
  | cs => cs

/-- The integer that a text without underscores gives. Base 2 and base 8 may stand before the
sign. -/
def integer? (cs : List Char) : Option Int :=
  match Text.signedLiteral cs with
  | .ok n => some n
  | .error _ =>
    match Text.unsignedLiteral cs with
    | .ok n => some n
    | .error _ =>
      match cs with
      | '0' :: 'b' :: ds => (Text.signed 2 ds).toOption
      | '0' :: 'o' :: ds => (Text.signed 8 ds).toOption
      | _ => none

/-- The number that a text with a leading digit or sign gives. -/
def number (text : String) : Scalar :=
  let cs := text.toList.filter (· ≠ '_')
  match integer? cs with
  | some n => .int n
  | none => if isFloat (dropSign cs) then .float else .string

/-- The underscores of a fraction must stand between digits. -/
def fraction (text : String) : Scalar :=
  if Text.separatesDigits Char.isDigit text.toList false false &&
      isFloat (text.toList.filter (· ≠ '_')) then .float
  else .string

/-- What the text of a plain scalar stands for. -/
def ofText (text : String) : Scalar :=
  match word? text with
  | some s => s
  | none =>
    match text.toList with
    | c :: _ =>
      if c = '.' then fraction text
      else if c.isDigit || c = '+' || c = '-' then
        if isTimestamp text then .timestamp else number text
      else .string
    | [] => .null

end Scalar

end LetPoly.Yaml
