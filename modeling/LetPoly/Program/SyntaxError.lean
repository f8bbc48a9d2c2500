import LetPoly.Text.Quoted
import LetPoly.Yaml.Node

/-!
# Errors in program documents

A well-formed document may still not be a program. An error says what is wrong and where.

## Main definitions

* `Problem`, `Problem.message`: what is wrong.
* `SyntaxError`, `SyntaxError.message`: the problem with its position.
-/

namespace LetPoly

open Text (Position)

/-- What is wrong with a node of a document. -/
inductive Problem where
  /-- A mapping does not have exactly one key. -/
  | notSingleKey
  /-- The operands of an operator are no list of two. -/
  | notOperands
  | notExpressions
  | notIdentifier
  | notIdentifiers
  | notTypeName
  /-- A form has no mapping for its fields. -/
  | notFields (required : List String)
  | unknownForm (name : String)
  | unexpectedKey (key : String)
  | duplicateKey (key : String)
  | missingKey (key : String)
  | badInteger (text : String)
  | badBoolean (text : String)
  | badLiteral (text : String)
  deriving DecidableEq, Repr

/-- The wording of a problem. -/
def Problem.message : Problem → String
  | .notSingleKey => "expected a single-key mapping"
  | .notOperands => "expected a list of 2 operands"
  | .notExpressions => "expected a list of expressions"
  | .notIdentifier => "expected an identifier"
  | .notIdentifiers => "expected a list of identifiers"
  | .notTypeName => "expected one of int, bool or unit"
  | .notFields required => "expected a mapping with keys [" ++ " ".intercalate required ++ "]"
  | .unknownForm name => "unknown expression " ++ Text.quote name
  | .unexpectedKey key => "unexpected key " ++ Text.quote key
  | .duplicateKey key => "duplicate key " ++ Text.quote key
  | .missingKey key => "missing key " ++ Text.quote key
  | .badInteger text => "invalid integer " ++ Text.quote text
  | .badBoolean text => "invalid boolean " ++ Text.quote text
  | .badLiteral text => "unsupported literal " ++ Text.quote text

/-- A problem and where it is. -/
structure SyntaxError where
  position : Position
  problem : Problem
  deriving DecidableEq, Repr

/-- The wording of an error: its position and its problem. -/
def SyntaxError.message (e : SyntaxError) : String :=
  e.position.render ++ ": " ++ e.problem.message

end LetPoly
