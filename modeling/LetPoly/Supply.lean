import LetPoly.Ty.Basic

/-!
# The supply of fresh type variables

Fresh variables are numbered upwards from a start. Ids are signed 64-bit words: the successor of
the largest one is the smallest one.

## Main definitions

* `Supply`: the next id to hand out.
* `Supply.fresh`, `Supply.freshList`: one fresh id, several fresh ids.
* `Supply.after`: the supply that starts just above a given id.
-/

namespace LetPoly

/-- The supply of fresh type variables, known by the next id it hands out. -/
structure Supply where
  next : Int
  deriving DecidableEq, Repr, Inhabited

namespace Supply

/-- The id that follows `v` among signed 64-bit words. -/
def succ (v : Int) : Int :=
  Int.bmod (v + 1) 0x10000000000000000

/-- The supply whose first id follows `v`. -/
def after (v : Int) : Supply :=
  ⟨succ v⟩

/-- Hands out one id. -/
def fresh (g : Supply) : Int × Supply :=
  (g.next, after g.next)

/-- Hands out `n` ids, in order. -/
def freshList (g : Supply) : Nat → List Int × Supply
  | 0 => ([], g)
  | n + 1 =>
    let (v, g₁) := g.fresh
    let (vs, g₂) := g₁.freshList n
    (v :: vs, g₂)

end Supply

end LetPoly
