import LetPoly.Ty.Printer

/-!
# Substitutions as lists of equations

A substitution is an ordered list of equations `'_v := t`. It is applied one equation after the
other: a later equation also acts on the types that earlier ones have put in.

## Main definitions

* `Equation`: a variable and the type it stands for.
* `Subst`: a list of equations, in the order in which they are applied.
* `Ty.apply`: the effect of a substitution on a type.
* `Subst.render`: the equations in square brackets.
-/

namespace LetPoly

/-- The type `type` in place of the variable `var`. -/
structure Equation where
  var : Int
  type : Ty
  deriving DecidableEq, Repr

/-- Equations in the order in which they are applied. -/
abbrev Subst := List Equation

/-- Applies the equations of a substitution to a type, first to last. -/
def Ty.apply (t : Ty) (s : Subst) : Ty :=
  s.foldl (fun t e => t.replace e.var e.type) t

/-- The text of one equation. -/
def Equation.render (e : Equation) : String :=
  Ty.idName e.var ++ " := " ++ e.type.render

/-- The equations in order, in square brackets. -/
def Subst.render (s : Subst) : String :=
  "[" ++ ", ".intercalate (s.map Equation.render) ++ "]"

namespace Ty

@[simp] theorem apply_nil (t : Ty) : t.apply [] = t := rfl

@[simp] theorem apply_cons (t : Ty) (e : Equation) (s : Subst) :
    t.apply (e :: s) = (t.replace e.var e.type).apply s := rfl

theorem apply_append (t : Ty) (s s' : Subst) : t.apply (s ++ s') = (t.apply s).apply s' :=
  List.foldl_append

end Ty

end LetPoly
