import LetPoly.Ty.Basic

/-!
# Types as text

A function type is written `a -> b`, or `(a, b) -> c` when it does not have exactly one argument;
the arrow groups to the right. A tuple type is written `a * b`, in round brackets when it has fewer
than two components. A missing type is written `<nil>`. What a variable is called is a parameter:
`Ty.render` shows its id, and schemes give their quantified variables letters.

## Main definitions

* `Text.parenthesizeIf`: a text in round brackets under a condition.
* `Ty.Place`: where a type stands, which decides on round brackets.
* `Ty.renderIn`: a type as text at a place, under a naming of its variables.
* `Ty.render`: a type as text on its own, variables shown by id.
* `Ty.kind`: what kind of type it is, in one word.
-/

namespace LetPoly

/-- The text, in round brackets if `wrap` holds. -/
def Text.parenthesizeIf (wrap : Bool) (s : String) : String :=
  if wrap then "(" ++ s ++ ")" else s

namespace Ty

/-- Where a type stands in a larger one. -/
inductive Place where
  /-- On its own, as a result, or in a bracketed list of arguments. -/
  | top
  /-- As the only argument of a function type. -/
  | argument
  /-- As a component of a tuple type. -/
  | component
  deriving DecidableEq

/-- The name of a variable that no scheme quantifies: `'_` and its id. -/
def idName (v : Int) : String :=
  "'_" ++ toString v

mutual

/-- The text of a type at a place, with variables named by `name`. -/
def renderIn (name : Int → String) : Place → Ty → String
  | _, .absent => "<nil>"
  | _, .const n => n
  | _, .var v => name v
  | place, .arrow args ret =>
    let single := args.length == 1
    let texts := renderAll name (if single then .argument else .top) args
    Text.parenthesizeIf (place != .top)
      (Text.parenthesizeIf (!single) (", ".intercalate texts) ++ " -> " ++ ret.renderIn name .top)
  | place, .tuple elems =>
    Text.parenthesizeIf (place == .component || decide (elems.length < 2))
      (" * ".intercalate (renderAll name .component elems))

/-- The texts of a list of types, all at one kind of place. -/
def renderAll (name : Int → String) (place : Place) : List Ty → List String
  | [] => []
  | t :: ts => t.renderIn name place :: renderAll name place ts

end

/-- The text of a type, with every variable shown by its id. -/
def render (t : Ty) : String :=
  t.renderIn idName .top

/-- The kind of a type in one word, or nothing for a missing type. -/
def kind : Ty → Option String
  | .absent => none
  | .const _ => some "Const"
  | .var _ => some "Var"
  | .arrow _ _ => some "Arrow"
  | .tuple _ => some "Tuple"

end Ty

end LetPoly
