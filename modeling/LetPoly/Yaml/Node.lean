/-!
# Document trees

A document is a tree of scalars, sequences and mappings, each with the position where it starts: a
line and a column, both counted from 1, where columns count characters. An alias stands for a node
that was given a name earlier in the document; it holds that node.

## Main definitions

* `Text.Position`, `Position.render`: a place in a text, written `line:column`.
* `Position.nextColumn`, `Position.nextLine`: the positions behind a character and a line end.
* `Yaml.Node`: a node with its position.
* `Node.position`: where it starts.
* `Node.keyText`: the text of a node that is used as a key.
-/

namespace LetPoly

/-! ### Positions -/

namespace Text

/-- A place in a text. -/
structure Position where
  line : Nat := 1
  column : Nat := 1
  deriving DecidableEq, Repr, Inhabited

namespace Position

/-- A position as line and column with a colon between them. -/
def render (p : Position) : String :=
  toString p.line ++ ":" ++ toString p.column

/-- One column on. -/
def nextColumn (p : Position) : Position :=
  { p with column := p.column + 1 }

/-- At the start of the next line. -/
def nextLine (p : Position) : Position :=
  ⟨p.line + 1, 1⟩

end Position

end Text

/-! ### Nodes -/

namespace Yaml

open Text (Position)

/-- A node of a document. -/
inductive Node where
  /-- A text with the short name of its type. -/
  | scalar (position : Position) (tag text : String)
  | sequence (position : Position) (items : List Node)
  | mapping (position : Position) (entries : List (Node × Node))
  /-- Another occurrence of a named node. -/
  | alias (position : Position) (name : String) (target : Node)
  deriving Inhabited

namespace Node

/-- Where the node starts. -/
def position : Node → Position
  | .scalar q _ _ | .sequence q _ | .mapping q _ | .alias q _ _ => q

/-- The text of a key: an alias goes by its name, and collections have no text. -/
def keyText : Node → String
  | .scalar _ _ text => text
  | .alias _ name _ => name
  | _ => ""

end Node

end Yaml

end LetPoly
