import LetPoly.Inference.State

/-!
# Type inference

`infer` finds the type of an expression, node by node and from left to right. Whatever it learns
goes into the substitution of the state; the slots it fills go into the tree, which it returns also
when it fails, with the slots that were filled up to then.

A variable gets a fresh instance of its scheme. The name of a plain binding is in scope in the body
only, with a generalized type. A recursive function and its arguments are in scope in its own body
with their types as they are, and the function is generalized for the rest. The names of a tuple are
in scope, with their types as they are, in the value too, and each is generalized on its own for the
body.

## Main definitions

* `Outcome`: the tree and the state after a step, and its result or failure; `Outcome.andThen`,
  `State.unifyThen`, `State.leaveThen` go on after a step that ended well.
* `infer`, `inferAll`: the types of an expression, of a list of expressions.
-/

namespace LetPoly

/-- The tree and the state after a step of inference, with its result or its failure. -/
structure Outcome (τ ρ : Type) where
  tree : τ
  state : State
  result : Except Failure ρ

namespace Outcome

variable {τ τ' ρ ρ' : Type}

/-- A step that ended well. -/
def done (tree : τ) (state : State) (value : ρ) : Outcome τ ρ :=
  ⟨tree, state, .ok value⟩

/-- A step that failed. -/
def failed (tree : τ) (state : State) (failure : Failure) : Outcome τ ρ :=
  ⟨tree, state, .error failure⟩

/-- Goes on after a step that ended well. A step that failed ends everything: `rebuild` puts its
tree in its place, and `blame` tells the failure as seen from there. -/
def andThen (o : Outcome τ ρ) (rebuild : τ → τ') (blame : Failure → Failure)
    (next : τ → State → ρ → Outcome τ' ρ') : Outcome τ' ρ' :=
  match o.result with
  | .error f => failed (rebuild o.tree) o.state (blame f)
  | .ok value => next o.tree o.state value

/-- A step whose last part was inference in the `i`-th child: it has left the scope of the `n`
names in which the child was looked at, whether that went well or not. -/
def leaving (o : Outcome Expr Ty) (rebuild : Expr → Expr) (i n : Nat) : Outcome Expr Ty :=
  match o.state.leave? n with
  | none => failed (rebuild o.tree) o.state (.here .scopeUnderflow)
  | some st =>
    match o.result with
    | .error f => failed (rebuild o.tree) st (f.under i)
    | .ok t => done (rebuild o.tree) st t

end Outcome

open Outcome

namespace State

/-- Makes two types alike and goes on, or blames the node `tree`. -/
def unifyThen (st : State) (tree : Expr) (a b : Ty) (next : State → Outcome Expr Ty) :
    Outcome Expr Ty :=
  match st.unify a b with
  | (st, some e) => failed tree st (.here (.type e))
  | (st, none) => next st

/-- Leaves the scope of the `n` most recent names and goes on. -/
def leaveThen (st : State) (tree : Expr) (n : Nat) (next : State → Outcome Expr Ty) :
    Outcome Expr Ty :=
  match st.leave? n with
  | none => failed tree st (.here .scopeUnderflow)
  | some st => next st

/-- Ends a step by making two types alike. -/
def constrain (st : State) (tree : Expr) (a b result : Ty) : Outcome Expr Ty :=
  st.unifyThen tree a b fun st => done tree st result

end State

mutual

/-- Infers the type of an expression. -/
def infer : Expr → State → Outcome Expr Ty
  | .absent, st => failed .absent st ⟨.empty, none⟩
  | .unit, st => done .unit st .unit
  | .bool b, st => done (.bool b) st .bool
  | .int n, st => done (.int n) st .int
  | .var x, st =>
    match st.env.lookup x with
    | none => failed (.var x) st (.here (.unbound x))
    | some σ =>
      let (t, st) := st.instantiate σ
      done (.var x) st t
  | .not e, st =>
    (infer e st).andThen .not (.under 0) fun e st t =>
    st.constrain (.not e) .bool t .bool
  | .neg e, st =>
    (infer e st).andThen .neg (.under 0) fun e st t =>
    st.constrain (.neg e) .int t .int
  | .arith op l r, st =>
    (infer l st).andThen (.arith op · r) (.under 0) fun l st t₁ =>
    (infer r st).andThen (.arith op l ·) (.under 1) fun r st t₂ =>
    st.unifyThen (.arith op l r) t₁ t₂ fun st =>
    st.constrain (.arith op l r) t₁ .int .int
  | .eq l r, st =>
    (infer l st).andThen (.eq · r) (.under 0) fun l st t₁ =>
    (infer r st).andThen (.eq l ·) (.under 1) fun r st t₂ =>
    st.constrain (.eq l r) t₁ t₂ .bool
  | .le l r, st =>
    (infer l st).andThen (.le · r) (.under 0) fun l st t₁ =>
    st.unifyThen (.le l r) .int t₁ fun st =>
    (infer r st).andThen (.le l ·) (.under 1) fun r st t₂ =>
    st.constrain (.le l r) .int t₂ .bool
  | .ite c t e, st =>
    (infer c st).andThen (.ite · t e) (.under 0) fun c st t₁ =>
    st.unifyThen (.ite c t e) .bool t₁ fun st =>
    (infer t st).andThen (.ite c · e) (.under 1) fun t st t₂ =>
    (infer e st).andThen (.ite c t ·) (.under 2) fun e st t₃ =>
    st.unifyThen (.ite c t e) t₂ t₃ fun st =>
    done (.ite c t e) st (t₂.apply st.subst)
  | .letIn b v e, st =>
    let (b, st) := st.declare b
    (infer v st).andThen (.letIn b · e) (.under 0) fun v st t =>
    st.unifyThen (.letIn b v e) b.slot t fun st =>
    let st := st.refresh
    let b := st.resolve b
    (infer e (st.bind b)).leaving (.letIn b v ·) 1 1
  | .letRec fn args body rest, st =>
    let (fn, st) := st.declare fn
    let (args, st) := (st.pushMono fn.name fn.slot).enter args
    (infer body st).andThen (.letRec fn args · rest) (.under 0) fun body st ret =>
    st.leaveThen (.letRec fn args body rest) (args.length + 1) fun st =>
    st.unifyThen (.letRec fn args body rest) fn.slot (.arrow (args.map (·.slot)) ret) fun st =>
    let st := st.refresh
    let fn := st.resolve fn
    let args := args.map st.resolve
    (infer rest (st.bind fn)).leaving (.letRec fn args body ·) 1 1
  | .app fn args slot, st =>
    (infer fn st).andThen (.app · args slot) (.under 0) fun fn st t =>
    (inferAll 1 args st).andThen (.app fn · slot) id fun args st ts =>
    let (ret, st) := st.freshVar
    st.unifyThen (.app fn args slot) (.arrow ts ret) t fun st =>
    let result := ret.apply st.subst
    done (.app fn args result) st result
  | .tuple es, st =>
    (inferAll 0 es st).andThen .tuple id fun es st ts =>
    done (.tuple es) st (.tuple ts)
  | .letTuple vars v e, st =>
    let (vars, st) := st.enter vars
    (infer v st).andThen (.letTuple vars · e) (.under 0) fun v st t =>
    st.leaveThen (.letTuple vars v e) vars.length fun st =>
    st.unifyThen (.letTuple vars v e) t (.tuple (vars.map (·.slot))) fun st =>
    let st := st.refresh
    let vars := vars.map st.resolve
    (infer e (vars.foldl State.bind st)).leaving (.letTuple vars v ·) 1 vars.length
  | .foreign kind, st => failed (.foreign kind) st (.here (.unhandled kind))

/-- Infers the types of a list of children, the first of which is the `i`-th child of its parent. A
failure names its place as seen from the parent. -/
def inferAll (i : Nat) : List Expr → State → Outcome (List Expr) (List Ty)
  | [], st => done [] st []
  | e :: es, st =>
    (infer e st).andThen (· :: es) (.under i) fun e st t =>
    (inferAll (i + 1) es st).andThen (e :: ·) id fun es st ts =>
    done (e :: es) st (t :: ts)

end

end LetPoly
