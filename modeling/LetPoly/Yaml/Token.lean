import LetPoly.Yaml.Tag

/-!
# Tokens

The tokens of a stream of documents. The ones that open and close blocks and mark keys are not
written in the text; they follow from its indentation and its colons.

## Main definitions

* `Yaml.Token`, `Token.Kind`: a token with its place.
* `Token.next`: the position behind an indicator.
-/

namespace LetPoly.Yaml

open Text (Position)

/-- What a token is. -/
inductive Token.Kind where
  | streamStart
  | streamEnd
  | directive (d : Directive)
  | documentStart
  | documentEnd
  | blockSequence
  | blockMapping
  | blockEnd
  | flowSequence
  | flowSequenceEnd
  | flowMapping
  | flowMappingEnd
  /-- The dash before an entry of a block sequence. -/
  | entry
  /-- The comma in a flow collection. -/
  | comma
  /-- The start of a key, which may be written as a question mark. -/
  | key (written : Bool)
  /-- The colon before a value. -/
  | value
  | alias (name : String)
  | anchor (name : String)
  | tag (tag : Tag)
  | scalar (plain : Bool) (text : String)

/-- A token with the position where it starts. -/
structure Token where
  kind : Token.Kind
  position : Position

/-- The position behind a token of at most one character. -/
def Token.next (t : Token) : Position :=
  match t.kind with
  | .key false => t.position
  | _ => t.position.nextColumn

end LetPoly.Yaml
