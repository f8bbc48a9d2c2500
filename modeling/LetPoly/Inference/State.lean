import LetPoly.Env
import LetPoly.Expr.Slots
import LetPoly.Unification

/-!
# The state of type inference

Inference carries along an environment, the substitution found so far, the supply of fresh
variables, and a record of what it has done. Unification steps add their equations to the end of the
substitution; the environment is brought up to date with the substitution before each
generalization.

## Main definitions

* `Event`: a step of inference worth recording.
* `InferError`: why inference stopped; `InferError.message` is its wording.
* `Failure`: an error together with the place in the tree that is to blame.
* `State`: the state, with its steps `State.unify`, `State.instantiate`, `State.declare`,
  `State.enter`, `State.refresh`, `State.bind`.
-/

namespace LetPoly

/-- What inference records about its course. -/
inductive Event where
  /-- A fresh id was handed out. -/
  | drawn (id : Int)
  /-- Unification bound a variable. -/
  | bound (equation : Equation)
  /-- The environment `env` was brought up to date with the substitution `subst`. -/
  | refreshed (env : Env) (subst : Subst)
  /-- A binding was given a scheme. -/
  | generalized (name : String) (scheme : Scheme)
  deriving DecidableEq

/-- Why inference stopped. -/
inductive InferError where
  /-- Two types could not be made alike. -/
  | type (error : TypeError)
  /-- A variable has no binding. -/
  | unbound (name : String)
  /-- An expression is missing. -/
  | empty
  /-- An expression is of a kind without a typing rule. -/
  | unhandled (kind : String)
  /-- A scope was left that had not been entered. -/
  | scopeUnderflow
  deriving DecidableEq

/-- The complaint about an environment with nothing to remove. -/
def Env.underflowMessage : String :=
  "pop from empty type-environment"

/-- The wording of an error. -/
def InferError.message : InferError → String
  | .type e => e.message
  | .unbound name => "Variable " ++ name ++ " not found"
  | .empty => "Empty expression"
  | .unhandled kind => "Unhandled expression type " ++ kind
  | .scopeUnderflow => Env.underflowMessage

/-- An error, and the node that is to blame if there is one. -/
structure Failure where
  error : InferError
  place : Option Expr.Path
  deriving DecidableEq

namespace Failure

/-- A failure at the node itself. -/
def here (error : InferError) : Failure :=
  ⟨error, some []⟩

/-- A failure inside the `i`-th child, seen from the parent. -/
def under (i : Nat) (f : Failure) : Failure :=
  { f with place := f.place.map (i :: ·) }

end Failure

/-- The state of inference. -/
structure State where
  env : Env
  subst : Subst
  supply : Supply
  /-- What has happened, first event first. -/
  trace : List Event

namespace State

/-- Hands out a fresh variable. -/
def freshVar (st : State) : Ty × State :=
  let (v, supply) := st.supply.fresh
  (.var v, { st with supply, trace := st.trace ++ [.drawn v] })

/-- Instantiates a scheme with fresh variables. -/
def instantiate (st : State) (σ : Scheme) : Ty × State :=
  let (t, supply) := σ.instantiate st.supply
  let ids := (st.supply.freshList σ.bound.size).1
  (t, { st with supply, trace := st.trace ++ ids.map .drawn })

/-- Makes two types alike under the substitution so far, and adds what that takes to it. -/
def unify (st : State) (a b : Ty) : State × Option TypeError :=
  let r := solve [⟨a.apply st.subst, b.apply st.subst⟩]
  let trace := st.trace ++ r.solved.map .bound
  match r.failure with
  | some e => ({ st with trace }, some e)
  | none => ({ st with trace, subst := st.subst ++ r.solved }, none)

/-- The type in the slot of a binding; an empty slot gets a fresh variable. -/
def declare (st : State) (b : Binding) : Binding × State :=
  if b.slot.isAbsent then
    let (t, st) := st.freshVar
    ({ b with slot := t }, st)
  else (b, st)

/-- Adds a name with a type that stays as it is. -/
def pushMono (st : State) (name : String) (t : Ty) : State :=
  { st with env := st.env.pushMono name t }

/-- Declares bindings in order, each one in scope from then on with its type as it is. -/
def enter (st : State) : List Binding → List Binding × State
  | [] => ([], st)
  | b :: bs =>
    let (b, st) := st.declare b
    let (bs, st) := enter (st.pushMono b.name b.slot) bs
    (b :: bs, st)

/-- Leaves the scope of the `n` most recent names. -/
def leave? (st : State) (n : Nat) : Option State :=
  (Env.popMany? n st.env).map fun env => { st with env }

/-- Brings the environment up to date with the substitution. -/
def refresh (st : State) : State :=
  { st with env := st.env.apply st.subst, trace := st.trace ++ [.refreshed st.env st.subst] }

/-- Brings a binding up to date with the substitution. -/
def resolve (st : State) (b : Binding) : Binding :=
  { b with slot := b.slot.apply st.subst }

/-- Generalizes the type of a binding and puts its name in scope. -/
def bind (st : State) (b : Binding) : State :=
  let σ := st.env.generalize b.slot
  { st with env := st.env.push b.name σ, trace := st.trace ++ [.generalized b.name σ] }

end State

end LetPoly
