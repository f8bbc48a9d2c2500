import LetPoly.Subst
import LetPoly.Supply

/-!
# Type schemes

A scheme is a type together with the set of variables it quantifies. The set may name variables
that do not occur in the type.

## Main definitions

* `Scheme`: a body and its quantified variables; `Scheme.mono` quantifies nothing.
* `Scheme.freeVars`: the variables of the body that are not quantified.
* `Scheme.apply`: the effect of a substitution, which leaves quantified variables alone.
* `Scheme.instantiate`: the body with fresh variables for the quantified ones.
* `Scheme.render`: the body as text, quantified variables named `'a`, `'b`, … in the order in which
  they first appear.
-/

namespace LetPoly

/-- A type with quantified variables. -/
structure Scheme where
  bound : VarSet
  body : Ty
  deriving DecidableEq

namespace Scheme

instance : Inhabited Scheme := ⟨⟨∅, .absent⟩⟩

/-- The scheme that quantifies nothing. -/
def mono (t : Ty) : Scheme :=
  ⟨∅, t⟩

/-- The variables of the body that are not quantified. -/
def freeVars (σ : Scheme) : VarSet :=
  σ.body.freeVars.diff σ.bound

/-- Applies a substitution to the body, passing over the equations for quantified variables. -/
def apply (σ : Scheme) (s : Subst) : Scheme :=
  { σ with body := σ.body.apply (s.filter fun e => !σ.bound.contains e.var) }

/-- Renames variables one after the other, each to the next fresh one. -/
def refresh : List Int → Ty → Supply → Ty × Supply
  | [], t, g => (t, g)
  | v :: vs, t, g => refresh vs (t.rename v g.fresh.1) g.fresh.2

/-- The body with each quantified variable, smallest first, renamed to a fresh one. -/
def instantiate (σ : Scheme) (g : Supply) : Ty × Supply :=
  refresh σ.bound.ids σ.body g

/-! ### Text -/

/-- The name of the `i`-th quantified variable: `'a` to `'z`, then `'a1` to `'z1`, and so on. -/
def letter (i : Nat) : String :=
  let name := "'" ++ String.singleton (Char.ofNat ('a'.toNat + i % 26))
  if i < 26 then name else name ++ toString (i / 26)

/-- The quantified variables of the body in the order in which they first appear. -/
def order (σ : Scheme) : List Int :=
  (σ.body.vars.filter σ.bound.contains).eraseDups

/-- What a variable is called in the text of a scheme. -/
def varName (σ : Scheme) (v : Int) : String :=
  if v ∈ σ.bound then letter (σ.order.idxOf v) else Ty.idName v

/-- The text of a scheme: its body, with letters for the quantified variables. -/
def render (σ : Scheme) : String :=
  σ.body.renderIn σ.varName .top

end Scheme

end LetPoly
