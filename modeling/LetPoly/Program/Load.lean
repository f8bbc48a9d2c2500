import LetPoly.Expr.Slots
import LetPoly.Program.Parts
import LetPoly.Yaml.Document

/-!
# Loading programs

A program is a document that holds one expression. Every binding without a declared type gets a
fresh variable, counted from zero, and every node of the tree remembers the position of the node it
was read from: the key of a form, else the node itself.

## Main definitions

* `Loaded`, `load`: the tree of a node, with positions.
* `Program`, `Program.ofNode`: the tree with its variables.
* `LoadError`, `Program.parse`: the program in a text.

## Main results

* `load_eq`: a node is loaded by loading its parts in order.
* `Program.parse_of_read`: the program in a text is the one that its document holds.
-/

namespace LetPoly

open Text (Position)
open Yaml (Node)

/-! ### Trees with positions -/

/-- A tree and the positions of its nodes, a node before its children. -/
structure Loaded where
  tree : Expr
  positions : List Position

/-- The tree of an outline whose parts have been loaded. -/
def Outline.finish (o : Outline) (parts : List Loaded) : Checked Loaded :=
  match o.deferred with
  | some e => .error e
  | none =>
    .ok ⟨o.head.assemble (parts.map (·.tree)), o.position :: parts.flatMap (·.positions)⟩

/-- The tree of a node. The parts are loaded in order, and the first error counts. -/
def load (n : Node) : Checked Loaded :=
  match _h : outline n with
  | .error e => .error e
  | .ok o => (o.parts.attach.mapM fun ⟨p, _⟩ => load p) >>= o.finish
termination_by n
decreasing_by exact sizeOf_lt_of_outline ‹_› ‹_›

/-- A node is loaded by loading its parts in order. -/
theorem load_eq (n : Node) :
    load n = outline n >>= fun o => o.parts.mapM load >>= o.finish := by
  rw [load]
  split
  · rename_i e h
    simp [h, bind, Except.bind]
  · rename_i o h
    rw [h, List.mapM_subtype (g := load) (fun _ _ => rfl), List.unattach_attach]
    rfl

/-! ### Programs -/

/-- A program: a tree whose bindings all have types or variables. -/
structure Program where
  tree : Expr
  /-- The supply of the variables that are not in use. -/
  supply : Supply
  /-- The positions of the nodes, a node before its children. -/
  positions : List Position

namespace Program

/-- The program that a node holds. -/
def ofNode (n : Node) : Checked Program := do
  let l ← load n
  let (tree, supply) := l.tree.fillSlots ⟨0⟩
  return ⟨tree, supply, l.positions⟩

/-- The nodes of the program with their positions. -/
def nodes (p : Program) : List ((Expr.Path × Expr) × Position) :=
  p.tree.places.zip p.positions

/-- Where the node at the end of a path was read. -/
def position? (p : Program) (place : Expr.Path) : Option Position :=
  (p.nodes.find? fun ((q, _), _) => q == place).map (·.2)

end Program

/-! ### Texts -/

/-- Why there is no program. -/
inductive LoadError where
  /-- The file cannot be opened. -/
  | unopened (path reason : String)
  /-- The file cannot be read. -/
  | unread (reason : String)
  /-- The text is not in the format of documents. -/
  | malformed
  /-- The text has no document. -/
  | empty
  /-- The document is not a program. -/
  | invalid (e : SyntaxError)
  deriving DecidableEq, Repr

/-- The wording of an error. -/
def LoadError.message : LoadError → String
  | .unopened path reason => "open program: open " ++ path ++ ": " ++ reason
  | .unread reason => "read program: " ++ reason
  | .malformed => "parse program: malformed document"
  | .empty => "parse program: empty document"
  | .invalid e => e.message

/-- The program in a text. -/
def Program.parse (text : String) : Except LoadError Program :=
  match Yaml.read text with
  | .malformed => .error .malformed
  | .empty => .error .empty
  | .document root =>
    match Program.ofNode root with
    | .ok p => .ok p
    | .error e => .error (.invalid e)

/-- A text with a document holds the program of the document, if that is one. -/
theorem Program.parse_of_read {text : String} {n : Node} (h : Yaml.read text = .document n) :
    parse text = (ofNode n).mapError .invalid := by
  simp only [parse, h]
  cases ofNode n <;> rfl

end LetPoly
