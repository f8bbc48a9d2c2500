import LetPoly.Ty.Printer

/-!
# Expressions

The expressions of a small functional language: literals, variables, negation, arithmetic,
comparison, conditionals, applications, tuples, and three kinds of bindings. Every binding and
every application has a slot for its type, empty (`Ty.absent`) until somebody fills it.

A tree may be unfinished: `Expr.absent` stands where an expression is missing, and `Expr.foreign`
for an expression of a kind this library does not know.

## Main definitions

* `Expr`: the expressions.
* `Expr.kind?`: what kind of expression it is, in one word.
* `Expr.Path`: the way from the root of a tree to one of its nodes.
* `Expr.places`: all nodes of a tree with their paths, a node before its children.
* `Expr.walk`: the nodes of a tree, unless one of them is foreign.
-/

namespace LetPoly

/-- A name that an expression binds, with the slot for its type. -/
structure Binding where
  name : String
  slot : Ty := .absent
  deriving DecidableEq, Repr, Inhabited

/-- The arithmetic operators. -/
inductive ArithOp where
  | add
  | sub
  | mul
  | div
  /-- An operator that only its number tells apart. -/
  | other (code : Int)
  deriving DecidableEq, Repr

/-- The expressions. -/
inductive Expr where
  /-- No expression. -/
  | absent
  | unit
  | bool (value : Bool)
  | int (value : Int)
  | var (name : String)
  | not (value : Expr)
  | neg (value : Expr)
  | arith (op : ArithOp) (left right : Expr)
  | eq (left right : Expr)
  | le (left right : Expr)
  | ite (cond yes no : Expr)
  /-- A value bound to a name in a body. -/
  | letIn (binding : Binding) (value body : Expr)
  /-- A recursive function, with its arguments and its own body, bound in `rest`. -/
  | letRec (func : Binding) (args : List Binding) (body rest : Expr)
  /-- An application, with the slot for the type of its result. -/
  | app (func : Expr) (args : List Expr) (result : Ty)
  | tuple (elems : List Expr)
  /-- The components of a tuple bound to names in a body. -/
  | letTuple (vars : List Binding) (value body : Expr)
  /-- An expression of a kind that is known only by its name. -/
  | foreign (kind : String)
  deriving Repr, Inhabited

namespace Expr

/-- Is there no expression here? -/
def isAbsent : Expr → Bool
  | .absent => true
  | _ => false

/-- The kind of an expression in one word, or nothing for a missing expression. -/
def kind? : Expr → Option String
  | .absent => none
  | .unit => some "Unit"
  | .bool _ => some "Bool"
  | .int _ => some "Int"
  | .var _ => some "Var"
  | .not _ => some "Not"
  | .neg _ => some "Neg"
  | .arith .add _ _ => some "Add"
  | .arith .sub _ _ => some "Sub"
  | .arith .mul _ _ => some "Mul"
  | .arith .div _ _ => some "Div"
  | .arith (.other _) _ _ => some "Arith"
  | .eq _ _ => some "Eq"
  | .le _ _ => some "LE"
  | .ite _ _ _ => some "If"
  | .letIn _ _ _ => some "Let"
  | .letRec _ _ _ _ => some "LetRec"
  | .app _ _ _ => some "App"
  | .tuple _ => some "Tuple"
  | .letTuple _ _ _ => some "LetTuple"
  | .foreign name => some name

/-! ### Places in a tree -/

/-- The way from the root of a tree to a node: at each step, which child comes next. The children
of a node are counted in the order in which they are written, the function of an application before
its arguments and the value of a binding before its body. -/
abbrev Path := List Nat

/-- Nodes of the `i`-th child, seen from the parent. -/
def under {α : Type} (i : Nat) (nodes : List (Path × α)) : List (Path × α) :=
  nodes.map fun (p, a) => (i :: p, a)

mutual

/-- All nodes of a tree with their paths, each node before its children. Missing expressions are
not listed. -/
def places : Expr → List (Path × Expr)
  | .absent => []
  | .unit => [([], .unit)]
  | .bool b => [([], .bool b)]
  | .int n => [([], .int n)]
  | .var x => [([], .var x)]
  | .not e => ([], .not e) :: under 0 e.places
  | .neg e => ([], .neg e) :: under 0 e.places
  | .arith op l r => ([], .arith op l r) :: (under 0 l.places ++ under 1 r.places)
  | .eq l r => ([], .eq l r) :: (under 0 l.places ++ under 1 r.places)
  | .le l r => ([], .le l r) :: (under 0 l.places ++ under 1 r.places)
  | .ite c t f =>
    ([], .ite c t f) :: (under 0 c.places ++ under 1 t.places ++ under 2 f.places)
  | .letIn b v e => ([], .letIn b v e) :: (under 0 v.places ++ under 1 e.places)
  | .letRec fn args body rest =>
    ([], .letRec fn args body rest) :: (under 0 body.places ++ under 1 rest.places)
  | .app fn args t => ([], .app fn args t) :: (under 0 fn.places ++ placesFrom 1 args)
  | .tuple es => ([], .tuple es) :: placesFrom 0 es
  | .letTuple vs v e => ([], .letTuple vs v e) :: (under 0 v.places ++ under 1 e.places)
  | .foreign k => [([], .foreign k)]

/-- The nodes of a list of children, the first of which is the `i`-th child of its parent. -/
def placesFrom (i : Nat) : List Expr → List (Path × Expr)
  | [] => []
  | e :: es => under i e.places ++ placesFrom (i + 1) es

end

/-- The children of a node, in order. -/
def children : Expr → List Expr
  | .not e | .neg e => [e]
  | .arith _ l r | .eq l r | .le l r => [l, r]
  | .ite c t f => [c, t, f]
  | .letIn _ v e | .letTuple _ v e => [v, e]
  | .letRec _ _ body rest => [body, rest]
  | .app fn args _ => fn :: args
  | .tuple es => es
  | _ => []

/-- The expression at the end of a path. -/
def at? : Path → Expr → Option Expr
  | [], e => some e
  | i :: p, e => e.children[i]?.bind (at? p)

/-! ### Foreign nodes -/

/-- A node of a kind that is known only by its name. -/
structure UnknownKind where
  name : String
  deriving DecidableEq, Repr

/-- The wording of the complaint about an unknown node. -/
def UnknownKind.message (k : UnknownKind) : String :=
  "unknown expression type: " ++ k.name

/-- The name of a foreign node. -/
def foreign? : Expr → Option String
  | .foreign name => some name
  | _ => none

/-- The first foreign node of a tree. -/
def unknown? (e : Expr) : Option UnknownKind :=
  (e.places.findSome? fun (_, e) => e.foreign?).map .mk

/-- The nodes that are met before the first foreign one. -/
def known (e : Expr) : List (Path × Expr) :=
  e.places.takeWhile fun (_, e) => e.foreign?.isNone

/-- The nodes of a tree, each before its children, unless one of them is foreign. -/
def walk (e : Expr) : Except UnknownKind (List Expr) :=
  match e.unknown? with
  | some k => .error k
  | none => .ok (e.places.map (·.2))

/-- The number of nodes met before the one at a path, unless a foreign node comes first. -/
def indexOf? (e : Expr) (p : Path) : Option Nat :=
  e.known.findIdx? fun (q, _) => q == p

end Expr

end LetPoly
