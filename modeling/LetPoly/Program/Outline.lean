import LetPoly.Expr.Basic
import LetPoly.Program.SyntaxError
import LetPoly.Yaml.Node
import LetPoly.Yaml.Scalar.Resolve

/-!
# Nodes as expressions

A scalar is a literal or a variable, a sequence is a tuple, and a mapping with one key is a form
named by that key; what the key belongs to are the parts of the form. The outline of a node says
which form it is and which nodes are its parts, so that nothing is left but to read the parts.

## Main definitions

* `Head`: an expression without its parts; `Head.assemble` puts parts behind it.
* `Fields`, `fields`: the entries of a mapping with fixed keys.
* `Outline`, `outline`: the form and the parts of a node.
-/

namespace LetPoly

open Text (Position)
open Yaml (Node Scalar)

/-- What reading a node gives. -/
abbrev Checked := Except SyntaxError

/-- The refusal of a node. -/
def reject {α : Type} (q : Position) (p : Problem) : Checked α :=
  .error ⟨q, p⟩

/-! ### Heads -/

/-- An expression without its parts. -/
inductive Head where
  /-- An expression that has no parts. -/
  | leaf (e : Expr)
  | tuple
  | not
  | neg
  | arith (op : ArithOp)
  | eq
  | le
  | ite
  | letIn (binding : Binding)
  | letRec (func : Binding) (args : List Binding)
  | app
  | letTuple (vars : List Binding)

/-- The expression with the given parts. -/
def Head.assemble : Head → List Expr → Expr
  | .leaf e, _ => e
  | .tuple, es => .tuple es
  | .not, [e] => .not e
  | .neg, [e] => .neg e
  | .arith op, [l, r] => .arith op l r
  | .eq, [l, r] => .eq l r
  | .le, [l, r] => .le l r
  | .ite, [c, t, f] => .ite c t f
  | .letIn b, [v, e] => .letIn b v e
  | .letRec fn args, [body, rest] => .letRec fn args body rest
  | .app, fn :: args => .app fn args .absent
  | .letTuple vs, [v, e] => .letTuple vs v e
  | _, _ => .absent

/-- The operator forms with two operands. -/
def Head.operator? (name : String) : Option Head :=
  match name with
  | "add" => some (.arith .add)
  | "sub" => some (.arith .sub)
  | "mul" => some (.arith .mul)
  | "div" => some (.arith .div)
  | "eq" => some .eq
  | "le" => some .le
  | _ => none

/-- The form of a node and its parts, in order. -/
structure Outline where
  position : Position
  head : Head
  parts : List Node
  /-- An error of the node that comes to light only after its parts have been read. -/
  deferred : Option SyntaxError := none

/-! ### Literals, names and lists -/

/-- The expression of a scalar with a type and a text. -/
def literal (q : Position) (tag text : String) : Checked Expr :=
  match tag with
  | "!!int" =>
    match Scalar.ofText text with
    | .int n => if n < Text.signBound then .ok (.int n) else reject q (.badInteger text)
    | _ => reject q (.badInteger text)
  | "!!bool" =>
    match Scalar.ofText text with
    | .bool b => .ok (.bool b)
    | _ => reject q (.badBoolean text)
  | "!!null" => .ok .unit
  | "!!str" =>
    if text = "()" then .ok .unit
    else if text = "" then reject q .notIdentifier
    else .ok (.var text)
  | _ => reject q (.badLiteral text)

/-- The name that a node gives. -/
def identifier (n : Node) : Checked String :=
  match n with
  | .scalar q tag text =>
    if tag = "!!str" && text ≠ "" then .ok text else reject q .notIdentifier
  | n => reject n.position .notIdentifier

/-- The names that a list of nodes gives. -/
def identifierList : List Node → Checked (List String)
  | [] => .ok []
  | n :: ns => do
    let name ← identifier n
    return name :: (← identifierList ns)

/-- The names that a node lists. -/
def identifiers (n : Node) : Checked (List String) :=
  match n with
  | .sequence _ items => identifierList items
  | n => reject n.position .notIdentifiers

/-- The nodes that a node lists. -/
def listed (n : Node) : Checked (List Node) :=
  match n with
  | .sequence _ items => .ok items
  | n => reject n.position .notExpressions

/-- The two nodes that a node lists. -/
def operands (n : Node) : Checked (List Node) :=
  match n with
  | .sequence q items => if items.length = 2 then .ok items else reject q .notOperands
  | n => reject n.position .notOperands

/-- The type that a node names. -/
def typeName (n : Node) : Checked Ty :=
  match n with
  | .scalar q _ text =>
    if text = "int" || text = "bool" || text = "unit" then .ok (.const text)
    else reject q .notTypeName
  | n => reject n.position .notTypeName

/-! ### Fields -/

/-- The entries of a mapping, each key once. -/
structure Fields where
  position : Position
  entries : List (String × Node)

/-- Adds entries to those before them; a key must be allowed and new. -/
def addFields (allowed : List String) :
    List (Node × Node) → List (String × Node) → Checked (List (String × Node))
  | [], seen => .ok seen
  | (k, v) :: entries, seen =>
    if !allowed.contains k.keyText then reject k.position (.unexpectedKey k.keyText)
    else if (seen.lookup k.keyText).isSome then reject k.position (.duplicateKey k.keyText)
    else addFields allowed entries (seen ++ [(k.keyText, v)])

/-- The entries of a mapping whose keys are among the required and the optional ones. -/
def fields (n : Node) (required optional : List String) : Checked Fields :=
  match n with
  | .mapping q entries => do return ⟨q, ← addFields (required ++ optional) entries []⟩
  | n => reject n.position (.notFields required)

/-- The value of a required key. -/
def Fields.get (f : Fields) (key : String) : Checked Node :=
  match f.entries.lookup key with
  | some v => .ok v
  | none => reject f.position (.missingKey key)

/-- The value of an optional key. -/
def Fields.get? (f : Fields) (key : String) : Option Node :=
  f.entries.lookup key

/-! ### Forms -/

/-- A name without a type. -/
def untyped (name : String) : Binding := { name }

/-- A conditional. -/
def iteOutline (q : Position) (n : Node) : Checked Outline := do
  let f ← fields n ["cond", "then", "else"] []
  let cond ← f.get "cond"
  let yes ← f.get "then"
  let no ← f.get "else"
  return { position := q, head := .ite, parts := [cond, yes, no] }

/-- A binding, perhaps with the name of its type. -/
def letOutline (q : Position) (n : Node) : Checked Outline := do
  let f ← fields n ["name", "value", "body"] ["type"]
  let name ← f.get "name"
  let value ← f.get "value"
  let body ← f.get "body"
  let name ← identifier name
  let plain : Outline := { position := q, head := .letIn (untyped name), parts := [value, body] }
  match (f.get? "type").map typeName with
  | none => return plain
  | some (.ok t) => return { plain with head := .letIn ⟨name, t⟩ }
  | some (.error e) => return { plain with deferred := some e }

/-- A recursive function. -/
def letRecOutline (q : Position) (n : Node) : Checked Outline := do
  let f ← fields n ["name", "args", "body", "in"] []
  let name ← f.get "name"
  let args ← f.get "args"
  let body ← f.get "body"
  let rest ← f.get "in"
  let name ← identifier name
  let args ← identifiers args
  return {
    position := q
    head := .letRec (untyped name) (args.map untyped)
    parts := [body, rest] }

/-- An application, perhaps with arguments. -/
def appOutline (q : Position) (n : Node) : Checked Outline := do
  let f ← fields n ["func"] ["args"]
  let func ← f.get "func"
  let plain : Outline := { position := q, head := .app, parts := [func] }
  match (f.get? "args").map listed with
  | none => return plain
  | some (.ok args) => return { plain with parts := func :: args }
  | some (.error e) => return { plain with deferred := some e }

/-- A binding of the components of a tuple. -/
def letTupleOutline (q : Position) (n : Node) : Checked Outline := do
  let f ← fields n ["names", "value", "body"] []
  let names ← f.get "names"
  let value ← f.get "value"
  let body ← f.get "body"
  let names ← identifiers names
  return { position := q, head := .letTuple (names.map untyped), parts := [value, body] }

/-- The form with the given name, at a position, and what belongs to the name. -/
def form (q : Position) (name : String) (n : Node) : Checked Outline :=
  match Head.operator? name with
  | some head => do return { position := q, head, parts := ← operands n }
  | none =>
    match name with
    | "var" => do return { position := q, head := .leaf (.var (← identifier n)), parts := [] }
    | "not" => .ok { position := q, head := .not, parts := [n] }
    | "neg" => .ok { position := q, head := .neg, parts := [n] }
    | "tuple" => do return { position := q, head := .tuple, parts := ← listed n }
    | "if" => iteOutline q n
    | "let" => letOutline q n
    | "letrec" => letRecOutline q n
    | "app" => appOutline q n
    | "lettuple" => letTupleOutline q n
    | _ => reject q (.unknownForm name)

/-- The form and the parts of a node. An alias stands for its target. -/
def outline : Node → Checked Outline
  | .alias _ _ target => outline target
  | .scalar q tag text => do
    return { position := q, head := .leaf (← literal q tag text), parts := [] }
  | .sequence q items => .ok { position := q, head := .tuple, parts := items }
  | .mapping _ [(key, value)] => form key.position key.keyText value
  | .mapping q _ => reject q .notSingleKey

end LetPoly
