import LetPoly.Scheme

/-!
# Type environments

An environment is a stack of names with their schemes. A name means its most recent entry; entries
it hides stay in the stack and count for the free variables.

## Main definitions

* `Entry`, `Env`: one entry, and the stack of them, most recent first.
* `Env.lookup`, `Env.push`, `Env.pop?`: the stack operations.
* `Env.apply`, `Env.freeVars`: substitution in all entries, and the variables free in any.
* `Env.generalize`: the scheme of a type, quantified over all variables that are not free in the
  environment.
-/

namespace LetPoly

/-- A name and its scheme. -/
structure Entry where
  name : String
  scheme : Scheme
  deriving DecidableEq

/-- A stack of entries, most recent first. -/
abbrev Env := List Entry

namespace Env

/-- Adds an entry. -/
def push (env : Env) (name : String) (σ : Scheme) : Env :=
  ⟨name, σ⟩ :: env

/-- Adds an entry that quantifies nothing. -/
def pushMono (env : Env) (name : String) (t : Ty) : Env :=
  env.push name (.mono t)

/-- Removes the most recent entry, if there is one. -/
def pop? : Env → Option Env
  | [] => none
  | _ :: env => some env

/-- Removes the `n` most recent entries, if there are that many. -/
def popMany? : Nat → Env → Option Env
  | 0, env => some env
  | n + 1, env => (pop? env).bind (popMany? n)

/-- The scheme of the most recent entry for a name. -/
def lookup (env : Env) (name : String) : Option Scheme :=
  (env.find? fun e => e.name == name).map (·.scheme)

/-- Applies a substitution to every entry. -/
def apply (env : Env) (s : Subst) : Env :=
  env.map fun e => { e with scheme := e.scheme.apply s }

/-- The variables that are free in some entry. -/
def freeVars (env : Env) : VarSet :=
  env.foldr (fun e vs => vs.union e.scheme.freeVars) ∅

/-- The largest variable in the bodies of the schemes, or `low` if none is above that. -/
def maxVar (env : Env) (low : Int) : Int :=
  (env.flatMap fun e => e.scheme.body.vars).foldl max low

/-- The scheme of `t` that quantifies every variable not free in the environment. -/
def generalize (env : Env) (t : Ty) : Scheme :=
  ⟨t.freeVars.diff env.freeVars, t⟩

theorem mem_freeVars {v : Int} {env : Env} :
    v ∈ env.freeVars ↔ ∃ e, e ∈ env ∧ v ∈ e.scheme.freeVars := by
  induction env with
  | nil => simp [freeVars]
  | cons e env ih =>
    have : freeVars (e :: env) = (freeVars env).union e.scheme.freeVars := rfl
    simp [this, ih, or_comm]

end Env

end LetPoly
