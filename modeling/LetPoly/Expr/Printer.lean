import LetPoly.Expr.Basic

/-!
# Expressions as text

Expressions are written in the usual notation: `let x = v in b`, `let rec f a b = e in r`,
`if c then t else e`, `f a b`, `(a, b)`. Round brackets stand around an expression that binds more
weakly than its place allows. Arithmetic groups to the left. Missing and foreign expressions are
written as nothing.

## Main definitions

* `Expr.Strength`: how tightly an expression, or its place, binds.
* `Expr.bracket`: round brackets around a text whose place asks for them.
* `Expr.render`: an expression as text.
-/

namespace LetPoly

/-- How an operator is written. -/
def ArithOp.symbol : ArithOp → String
  | .add => "+"
  | .sub => "-"
  | .mul => "*"
  | .div => "/"
  | .other _ => "?"

namespace Expr

/-- How tightly an expression binds; a larger number binds more tightly. -/
abbrev Strength := Nat

namespace Strength

/-- Bindings and conditionals, and any place that allows them bare. -/
def loose : Strength := 0

/-- Comparisons. -/
def compare : Strength := 1

/-- Sums and differences. -/
def sum : Strength := 2

/-- Products and quotients. -/
def product : Strength := 3

/-- Applications, negations and negative numbers. -/
def application : Strength := 4

/-- What needs no round brackets anywhere. -/
def atom : Strength := 5

end Strength

/-- How tightly an operator binds. -/
def opStrength : ArithOp → Strength
  | .add | .sub => Strength.sum
  | _ => Strength.product

/-- How tightly an expression binds. -/
def strength : Expr → Strength
  | .letIn _ _ _ | .letRec _ _ _ _ | .letTuple _ _ _ | .ite _ _ _ => Strength.loose
  | .eq _ _ | .le _ _ => Strength.compare
  | .arith op _ _ => opStrength op
  | .not _ | .neg _ | .app _ _ _ => Strength.application
  | .int n => if n < 0 then Strength.application else Strength.atom
  | _ => Strength.atom

/-- Puts the text of an expression in round brackets if its place asks for more strength than it
has. -/
def bracket (place : Strength) (e : Expr) (text : String) : String :=
  Text.parenthesizeIf (decide (e.strength < place)) text

mutual

/-- The text of an expression on its own. A place that allows any strength takes it as it is; other
places bracket it as they need. -/
def render : Expr → String
  | .absent => ""
  | .unit => "()"
  | .bool b => if b then "true" else "false"
  | .int n => toString n
  | .var x => x
  | .not e => "not " ++ bracket Strength.atom e e.render
  | .neg e => "-" ++ bracket Strength.atom e e.render
  | .arith op l r =>
    bracket (opStrength op) l l.render ++ " " ++ op.symbol ++ " "
      ++ bracket (opStrength op + 1) r r.render
  | .eq l r => bracket Strength.sum l l.render ++ " = " ++ bracket Strength.sum r r.render
  | .le l r => bracket Strength.sum l l.render ++ " <= " ++ bracket Strength.sum r r.render
  | .ite c t f =>
    "if " ++ c.render ++ " then " ++ t.render ++ " else " ++ f.render
  | .letIn b v e => "let " ++ b.name ++ " = " ++ v.render ++ " in " ++ e.render
  | .letRec fn args body rest =>
    "let rec " ++ " ".intercalate ((fn :: args).map (·.name)) ++ " = " ++ body.render
      ++ " in " ++ rest.render
  | .app fn args _ =>
    bracket Strength.atom fn fn.render ++ (if args.isEmpty then " ()" else renderArgs args)
  | .tuple es => "(" ++ ", ".intercalate (renderAll es) ++ ")"
  | .letTuple vs v e =>
    "let (" ++ ", ".intercalate (vs.map (·.name)) ++ ") = " ++ v.render
      ++ " in " ++ e.render
  | .foreign _ => ""

/-- The arguments of an application, each after a blank. -/
def renderArgs : List Expr → String
  | [] => ""
  | e :: es => " " ++ bracket Strength.atom e e.render ++ renderArgs es

/-- The texts of a list of expressions. -/
def renderAll : List Expr → List String
  | [] => []
  | e :: es => e.render :: renderAll es

end

theorem render_app (fn : Expr) {args : List Expr} (h : args ≠ []) (t : Ty) :
    (app fn args t).render = bracket Strength.atom fn fn.render ++ renderArgs args := by
  rw [render, List.isEmpty_eq_false_iff.2 h, if_neg Bool.false_ne_true]

theorem renderAll_eq_map (es : List Expr) : renderAll es = es.map render := by
  induction es with
  | nil => rfl
  | cons e es ih => rw [renderAll, ih, List.map_cons]

end Expr

end LetPoly
