import LetPoly.Inference.Infer

/-!
# Inference passes

A context runs inference on whole trees, one pass after the other, and keeps what the latest pass
found: its substitution, its error and the node to blame. A context either draws fresh variables
from a supply of its own, which goes on from pass to pass, or starts each pass just above the
largest variable in the slots of the tree and in the bodies of the schemes of the environment. The
variables that a scheme lists as quantified are not looked at.

## Main definitions

* `Context`: the context; `Context.reset` forgets the latest pass.
* `Pass`: what a pass gives back.
* `Context.infer`: a pass that annotates the tree it is given.
* `Context.annotate`: a pass that annotates a copy.
-/

namespace LetPoly

/-- A node that inference blames. -/
structure Invalid where
  place : Expr.Path
  expr : Expr

/-- A context for inference passes. -/
structure Context where
  /-- The supply of fresh variables that all passes share, if there is one. -/
  supply : Option Supply := none
  /-- The substitution of the latest pass. -/
  subst : Subst := []
  /-- The error of the latest pass. -/
  error : Option InferError := none
  /-- The node that the latest pass blames. -/
  invalid : Option Invalid := none
  /-- Is there anything to forget? -/
  used : Bool := false

/-- How a pass ended. -/
inductive Verdict where
  | inferred (type : Ty)
  | failed (error : InferError)
  /-- The pass broke off at a foreign node before inference began. -/
  | stopped (node : Expr.UnknownKind)

/-- What a pass gives back. -/
structure Pass where
  /-- The context after the pass. -/
  context : Context
  /-- The tree the pass was given, as it is afterwards. -/
  given : Expr
  /-- The tree inference ran on. -/
  tree : Expr
  verdict : Verdict
  trace : List Event

namespace Context

/-- A context with nothing to remember. -/
def fresh (supply : Option Supply) : Context :=
  { supply }

/-- Forgets the latest pass. -/
def reset (ctx : Context) : Context :=
  if ctx.used then fresh ctx.supply else ctx

/-- The supply for a pass over a tree in an environment. -/
def passSupply (ctx : Context) (env : Env) (root : Expr) : Except Expr.UnknownKind Supply :=
  match ctx.supply with
  | some g => .ok g
  | none =>
    match root.unknown? with
    | some k => .error k
    | none => .ok (.after (env.maxVar root.maxVar))

/-- The context after inference has run. -/
def record (ctx : Context) (o : Outcome Expr Ty) : Context :=
  let ctx := { ctx with
    supply := ctx.supply.map fun _ => o.state.supply
    subst := o.state.subst
    used := true }
  match o.result with
  | .ok _ => ctx
  | .error f => { ctx with
      error := some f.error
      invalid := f.place.bind fun p => (o.tree.at? p).map (.mk p) }

/-- Runs inference on a tree that is there, and annotates it. After a success every slot and the
result are brought up to date with the final substitution. -/
def runOn (ctx : Context) (env : Env) (root : Expr) : Pass :=
  let ctx := ctx.reset
  match ctx.passSupply env root with
  | .error k => ⟨ctx, root, root, .stopped k, []⟩
  | .ok supply =>
    let o := LetPoly.infer root ⟨env, [], supply, []⟩
    let s := o.state.subst
    match o.result with
    | .ok t =>
      let tree := o.tree.mapSlots (·.apply s)
      ⟨ctx.record o, tree, tree, .inferred (t.apply s), o.state.trace⟩
    | .error f => ⟨ctx.record o, o.tree, o.tree, .failed f.error, o.state.trace⟩

/-- Infers the type of a tree and annotates it. A missing tree is refused before anything is
forgotten. The environment is left as it was. -/
def infer (ctx : Context) (env : Env) (root : Expr) : Pass :=
  if root.isAbsent then ⟨ctx, root, root, .failed .empty, []⟩ else ctx.runOn env root

/-- Infers the type of a tree and annotates a copy, which needs all nodes to be known. -/
def annotate (ctx : Context) (env : Env) (root : Expr) : Pass :=
  if root.isAbsent then ⟨ctx, root, root, .failed .empty, []⟩
  else
    match root.copy with
    | .error k => ⟨ctx, root, root, .stopped k, []⟩
    | .ok copy => { ctx.runOn env copy with given := root }

end Context

end LetPoly
