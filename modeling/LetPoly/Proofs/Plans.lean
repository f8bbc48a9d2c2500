import LetPoly.Proofs.Invariants
import LetPoly.Proofs.Trees

/-!
# The course of inference

What inference does at a node follows a plan: children are looked at, types are made alike and
scopes are left, one step after the other, and each step hands on what it has found. Plans are
written down here as data, one for each kind of node, and inference carries them out. So one can
speak of the moments of a run, whether it ends well or not: of the states in which children are
looked at, types are made alike and names are taken off the environment.

A plan adds names to the environment and takes them off again. What holds of a state may depend on
the number of names that are on top of those at the start. Such a property holds at every moment of
every run if it goes along with every step.

## Main definitions

* `Plan`, `Plan.run`: plans, and what comes of them.
* `Expr.plan`: the plan for a node.
* `Act`, `Plan.Takes`: the steps that are taken, and the states in which they are.
* `Visits`: the nodes that a run comes to, each with its place and the state there.
* `Expr.Faulty`: the failures of a node itself.
* `State.Scoped`: a property of states that goes along with every step, depending on the number of
  names added.
* `Outcome.Restores`: a step that ends with as many names as it began with, or fails.

## Main results

* `Expr.run_plan`: inference carries out the plan for the node.
* `infer_restores`, `error_ne_scopeUnderflow`: inference takes off the names that it adds, and no
  others.
* `Plan.Keeps.safe`, `Visits.exists_scoped`: what holds at the moments of a run.
* `exists_fault`: a run that fails does so in one step, and after that only takes off names.
-/

namespace LetPoly

open Outcome

/-! ### Plans -/

/-- What is to be done at a node, in order. Every step comes with the state in which it is taken,
and every step but the last ones with what is done next. -/
inductive Plan where
  /-- The type of the node is known. -/
  | finish (tree : Expr) (st : State) (t : Ty)
  /-- The node itself is at fault. -/
  | fault (tree : Expr) (st : State) (f : Failure)
  /-- The `i`-th child is looked at. -/
  | look (i : Nat) (c : Expr) (st : State) (rebuild : Expr → Expr)
    (next : Expr → State → Ty → Plan)
  /-- The `i`-th child is looked at in the scope of `n` names. Its type is that of the node, and
  the scope is left whether it has one or not. -/
  | lookLast (i : Nat) (c : Expr) (n : Nat) (st : State) (rebuild : Expr → Expr)
  /-- Two types are made alike. -/
  | unify (tree : Expr) (a b : Ty) (st : State) (next : State → Plan)
  /-- The scope of the `n` most recent names is left. -/
  | leave (tree : Expr) (n : Nat) (st : State) (next : State → Plan)

namespace Plan

/-- What comes of a plan. -/
def run : Plan → Outcome Expr Ty
  | .finish tree st t => done tree st t
  | .fault tree st f => failed tree st f
  | .look i c st rebuild next =>
    (infer c st).andThen rebuild (.under i) fun c st t => (next c st t).run
  | .lookLast i c n st rebuild => (infer c st).leaving rebuild i n
  | .unify tree a b st next => st.unifyThen tree a b fun st => (next st).run
  | .leave tree n st next => st.leaveThen tree n fun st => (next st).run

/-- Children are looked at in order, the first of which is the `i`-th child of the node. -/
def lookAll (i : Nat) : List Expr → State → (List Expr → Expr) →
    (List Expr → State → List Ty → Plan) → Plan
  | [], st, _, next => next [] st []
  | e :: es, st, rebuild, next =>
    .look i e st (fun e => rebuild (e :: es)) fun e st t =>
    lookAll (i + 1) es st (fun es => rebuild (e :: es)) fun es st ts =>
    next (e :: es) st (t :: ts)

end Plan

/-- The plan for a node. -/
def Expr.plan : Expr → State → Plan
  | .absent, st => .fault .absent st ⟨.empty, none⟩
  | .unit, st => .finish .unit st .unit
  | .bool b, st => .finish (.bool b) st .bool
  | .int n, st => .finish (.int n) st .int
  | .var x, st =>
    match st.env.lookup x with
    | none => .fault (.var x) st (.here (.unbound x))
    | some σ => .finish (.var x) (st.instantiate σ).2 (st.instantiate σ).1
  | .not e, st =>
    .look 0 e st .not fun e st t =>
    .unify (.not e) .bool t st fun st =>
    .finish (.not e) st .bool
  | .neg e, st =>
    .look 0 e st .neg fun e st t =>
    .unify (.neg e) .int t st fun st =>
    .finish (.neg e) st .int
  | .arith op l r, st =>
    .look 0 l st (.arith op · r) fun l st t₁ =>
    .look 1 r st (.arith op l ·) fun r st t₂ =>
    .unify (.arith op l r) t₁ t₂ st fun st =>
    .unify (.arith op l r) t₁ .int st fun st =>
    .finish (.arith op l r) st .int
  | .eq l r, st =>
    .look 0 l st (.eq · r) fun l st t₁ =>
    .look 1 r st (.eq l ·) fun r st t₂ =>
    .unify (.eq l r) t₁ t₂ st fun st =>
    .finish (.eq l r) st .bool
  | .le l r, st =>
    .look 0 l st (.le · r) fun l st t₁ =>
    .unify (.le l r) .int t₁ st fun st =>
    .look 1 r st (.le l ·) fun r st t₂ =>
    .unify (.le l r) .int t₂ st fun st =>
    .finish (.le l r) st .bool
  | .ite c t e, st =>
    .look 0 c st (.ite · t e) fun c st t₁ =>
    .unify (.ite c t e) .bool t₁ st fun st =>
    .look 1 t st (.ite c · e) fun t st t₂ =>
    .look 2 e st (.ite c t ·) fun e st t₃ =>
    .unify (.ite c t e) t₂ t₃ st fun st =>
    .finish (.ite c t e) st (t₂.apply st.subst)
  | .letIn b v e, st =>
    let (b, st) := st.declare b
    .look 0 v st (.letIn b · e) fun v st t =>
    .unify (.letIn b v e) b.slot t st fun st =>
    .lookLast 1 e 1 (st.refresh.bind (st.resolve b)) (.letIn (st.resolve b) v ·)
  | .letRec fn args body rest, st =>
    let (fn, st) := st.declare fn
    let (args, st) := (st.pushMono fn.name fn.slot).enter args
    .look 0 body st (.letRec fn args · rest) fun body st ret =>
    .leave (.letRec fn args body rest) (args.length + 1) st fun st =>
    .unify (.letRec fn args body rest) fn.slot (.arrow (args.map (·.slot)) ret) st fun st =>
    .lookLast 1 rest 1 (st.refresh.bind (st.resolve fn))
      (.letRec (st.resolve fn) (args.map st.resolve) body ·)
  | .app fn args slot, st =>
    .look 0 fn st (.app · args slot) fun fn st t =>
    .lookAll 1 args st (.app fn · slot) fun args st ts =>
    .unify (.app fn args slot) (.arrow ts st.freshVar.1) t st.freshVar.2 fun st' =>
    .finish (.app fn args (st.freshVar.1.apply st'.subst)) st' (st.freshVar.1.apply st'.subst)
  | .tuple es, st =>
    .lookAll 0 es st .tuple fun es st ts =>
    .finish (.tuple es) st (.tuple ts)
  | .letTuple vars v e, st =>
    let (vars, st) := st.enter vars
    .look 0 v st (.letTuple vars · e) fun v st t =>
    .leave (.letTuple vars v e) vars.length st fun st =>
    .unify (.letTuple vars v e) t (.tuple (vars.map (·.slot))) st fun st =>
    .lookLast 1 e vars.length ((vars.map st.resolve).foldl State.bind st.refresh)
      (.letTuple (vars.map st.resolve) v ·)
  | .foreign kind, st => .fault (.foreign kind) st (.here (.unhandled kind))

/-- Two steps that follow a step are one. -/
theorem Outcome.andThen_andThen {τ τ' τ'' ρ ρ' ρ'' : Type} (o : Outcome τ ρ) (rebuild : τ → τ')
    (blame : Failure → Failure) (next : τ → State → ρ → Outcome τ' ρ') (rebuild' : τ' → τ'')
    (blame' : Failure → Failure) (next' : τ' → State → ρ' → Outcome τ'' ρ'') :
    (o.andThen rebuild blame next).andThen rebuild' blame' next' =
      o.andThen (fun a => rebuild' (rebuild a)) (fun f => blame' (blame f))
        fun a st v => (next a st v).andThen rebuild' blame' next' := by
  cases hr : o.result with
  | error f => simp only [andThen, hr, failed]
  | ok v => simp only [andThen, hr]

theorem Plan.run_lookAll (i : Nat) (es : List Expr) (st : State) (rebuild : List Expr → Expr)
    (next : List Expr → State → List Ty → Plan) :
    (lookAll i es st rebuild next).run =
      (inferAll i es st).andThen rebuild id fun es st ts => (next es st ts).run := by
  induction es generalizing i st rebuild next with
  | nil => rw [lookAll, inferAll, andThen, done]
  | cons e es ih =>
    simp only [lookAll, run, inferAll, andThen_andThen, ih]
    rfl

/-- **Inference carries out the plan for the node.** -/
theorem Expr.run_plan (e : Expr) (st : State) : (e.plan st).run = infer e st := by
  cases e with
  | var x =>
    cases h : st.env.lookup x <;> simp only [plan, infer, h, Plan.run]
  | app fn args slot =>
    simp only [plan, Plan.run, Plan.run_lookAll, infer]
  | tuple es =>
    simp only [plan, Plan.run, Plan.run_lookAll, infer]
  | letTuple vars v e =>
    simp only [plan, Plan.run, infer, List.length_map, State.resolve_refresh]
  | _ => rw [plan, infer]; rfl

/-! ### Moments -/

/-- A step at a node. -/
inductive Act where
  /-- The `i`-th child is looked at. -/
  | look (i : Nat) (c : Expr)
  /-- Two types are made alike. -/
  | unify (a b : Ty)
  /-- The scope of the `n` most recent names is left. -/
  | leave (n : Nat)
  /-- The node itself is found to be at fault. -/
  | fault (f : Failure)

/-- In the course of the plan the step is taken in the state. -/
inductive Plan.Takes : Plan → Act → State → Prop where
  | fault {tree : Expr} {st : State} {f : Failure} : Takes (.fault tree st f) (.fault f) st
  | look {i : Nat} {c : Expr} {st : State} {rebuild : Expr → Expr}
    {next : Expr → State → Ty → Plan} : Takes (.look i c st rebuild next) (.look i c) st
  | afterLook {i : Nat} {c c' : Expr} {st st₁ st' : State} {t : Ty} {rebuild : Expr → Expr}
    {next : Expr → State → Ty → Plan} {act : Act} (hc : infer c st = done c' st₁ t)
    (h : Takes (next c' st₁ t) act st') : Takes (.look i c st rebuild next) act st'
  | lookLast {i : Nat} {c : Expr} {n : Nat} {st : State} {rebuild : Expr → Expr} :
    Takes (.lookLast i c n st rebuild) (.look i c) st
  | leaveLast {i : Nat} {c : Expr} {n : Nat} {st : State} {rebuild : Expr → Expr} :
    Takes (.lookLast i c n st rebuild) (.leave n) (infer c st).state
  | unify {tree : Expr} {a b : Ty} {st : State} {next : State → Plan} :
    Takes (.unify tree a b st next) (.unify a b) st
  | afterUnify {tree : Expr} {a b : Ty} {st st₁ st' : State} {next : State → Plan} {act : Act}
    (hu : st.unify a b = (st₁, none)) (h : Takes (next st₁) act st') :
    Takes (.unify tree a b st next) act st'
  | leave {tree : Expr} {n : Nat} {st : State} {next : State → Plan} :
    Takes (.leave tree n st next) (.leave n) st
  | afterLeave {tree : Expr} {n : Nat} {st st₁ st' : State} {next : State → Plan} {act : Act}
    (hl : st.leave? n = some st₁) (h : Takes (next st₁) act st') :
    Takes (.leave tree n st next) act st'

/-- A run on the first expression from the first state comes, at the place `p`, to look at the
second expression in the second state. -/
inductive Visits : Expr → State → Expr.Path → Expr → State → Prop where
  | here {e : Expr} {st : State} : Visits e st [] e st
  | child {e c d : Expr} {st st₁ st₂ : State} {i : Nat} {p : Expr.Path}
    (hc : (e.plan st).Takes (.look i c) st₁) (hd : Visits c st₁ p d st₂) :
    Visits e st (i :: p) d st₂

/-! ### Properties that count names -/

/-- The property `K n` of states, where `n` is the number of names added, goes along with every step
of inference. A step in which types cannot be made alike is the last one and need not keep it. -/
structure State.Scoped (K : Nat → State → Prop) : Prop where
  freshVar : ∀ {n : Nat} {st : State}, K n st → K n st.freshVar.2
  instantiate : ∀ {n : Nat} {st : State} (σ : Scheme), K n st → K n (st.instantiate σ).2
  unify : ∀ {n : Nat} {st st' : State} {a b : Ty}, K n st → st.unify a b = (st', none) → K n st'
  pushMono : ∀ {n : Nat} {st : State} (x : String) (t : Ty), K n st → K (n + 1) (st.pushMono x t)
  leave : ∀ {n k : Nat} {st : State}, K (n + k) st → ∃ st', st.leave? k = some st' ∧ K n st'
  refresh : ∀ {n : Nat} {st : State}, K n st → K n st.refresh
  bind : ∀ {n : Nat} {st : State} (b : Binding), K n st → K (n + 1) (st.bind b)

namespace State.Scoped

variable {K : Nat → State → Prop} {n : Nat} {st : State}

theorem declare (hK : Scoped K) (b : Binding) (h : K n st) : K n (st.declare b).2 := by
  rw [State.declare]
  split
  · exact hK.freshVar h
  · exact h

theorem enter (hK : Scoped K) (bs : List Binding) (h : K n st) :
    K (n + (st.enter bs).1.length) (st.enter bs).2 := by
  induction bs generalizing n st with
  | nil => exact h
  | cons b bs ih =>
    rw [State.enter, List.length_cons, Nat.add_comm _ 1, ← Nat.add_assoc]
    exact ih (hK.pushMono _ _ (hK.declare b h))

theorem foldl_bind (hK : Scoped K) (bs : List Binding) (h : K n st) :
    K (n + bs.length) (bs.foldl State.bind st) := by
  induction bs generalizing n st with
  | nil => exact h
  | cons b bs ih =>
    rw [List.length_cons, Nat.add_comm _ 1, ← Nat.add_assoc]
    exact ih (hK.bind b h)

end State.Scoped

/-- The environment has room for the names that have been added. -/
theorem State.scoped_depth : State.Scoped fun n st => n ≤ st.env.length where
  freshVar h := h
  instantiate _ h := h
  unify h hu := by
    obtain ⟨-, -, -, henv, -⟩ := unify_eq hu
    exact henv ▸ h
  pushMono _ _ h := Nat.succ_le_succ h
  leave {n k st} h := by
    refine ⟨_, leave?_eq_some.2 ⟨Nat.le_of_add_left_le h, rfl⟩, ?_⟩
    rw [List.length_drop]
    exact Nat.le_sub_of_add_le h
  refresh h := by
    rw [refresh, Env.apply, List.length_map]
    exact h
  bind _ h := Nat.succ_le_succ h

/-- The failure is that of the node itself: it is missing, a variable that nobody has declared, or
foreign. -/
inductive Expr.Faulty : Expr → Failure → Prop where
  | absent : Faulty .absent ⟨.empty, none⟩
  | var {x : String} : Faulty (.var x) (.here (.unbound x))
  | foreign {kind : String} : Faulty (.foreign kind) (.here (.unhandled kind))

theorem Expr.Faulty.ne_type {e : Expr} {f : Failure} (h : e.Faulty f) (err : TypeError) :
    f.error ≠ .type err := by
  cases h <;> simp [Failure.here]

theorem Expr.Faulty.ne_scopeUnderflow {e : Expr} {f : Failure} (h : e.Faulty f) :
    f.error ≠ .scopeUnderflow := by
  cases h <;> simp [Failure.here]

/-- In the course of the plan for the node `e`, which begins and ends with `n` names, the property
`K` goes along with the number of names. -/
inductive Plan.Keeps (K : Nat → State → Prop) (e : Expr) (n : Nat) : Plan → Prop where
  | finish {tree : Expr} {st : State} {t : Ty} (h : K n st) : Keeps K e n (.finish tree st t)
  | fault {tree : Expr} {st : State} {f : Failure} (h : K n st) (hf : e.Faulty f) :
    Keeps K e n (.fault tree st f)
  | look {m i : Nat} {c : Expr} {st : State} {rebuild : Expr → Expr}
    {next : Expr → State → Ty → Plan} (hc : e.children[i]? = some c) (hm : n ≤ m) (h : K m st)
    (hnext : ∀ c' st' t, K m st' → Keeps K e n (next c' st' t)) :
    Keeps K e n (.look i c st rebuild next)
  | lookLast {i k : Nat} {c : Expr} {st : State} {rebuild : Expr → Expr}
    (hc : e.children[i]? = some c) (h : K (n + k) st) : Keeps K e n (.lookLast i c k st rebuild)
  | unify {tree : Expr} {a b : Ty} {st : State} {next : State → Plan} (h : K n st)
    (hnext : ∀ st', K n st' → Keeps K e n (next st')) : Keeps K e n (.unify tree a b st next)
  | leave {tree : Expr} {k : Nat} {st : State} {next : State → Plan} (h : K (n + k) st)
    (hnext : ∀ st', K n st' → Keeps K e n (next st')) : Keeps K e n (.leave tree k st next)

section Counting

variable {K : Nat → State → Prop} {n : Nat}

/-- The children before those that are looked at are `cs`. -/
theorem Plan.keeps_lookAll {e : Expr} (cs es : List Expr) (hes : e.children = cs ++ es) {st : State}
    (h : K n st) {rebuild : List Expr → Expr} {next : List Expr → State → List Ty → Plan}
    (hnext : ∀ es st ts, K n st → (next es st ts).Keeps K e n) :
    (lookAll cs.length es st rebuild next).Keeps K e n := by
  induction es generalizing cs st rebuild next with
  | nil => exact hnext [] st [] h
  | cons c es ih =>
    have hc : e.children[cs.length]? = some c := by
      rw [hes, List.getElem?_append_right (Nat.le_refl _), Nat.sub_self]
      rfl
    refine .look hc (Nat.le_refl n) h fun c' st' t h' => ?_
    have hes' : e.children = (cs ++ [c]) ++ es := by rw [hes, List.append_cons]
    have hrest : (lookAll (cs ++ [c]).length es st' (fun es => rebuild (c' :: es))
        fun es st ts => next (c' :: es) st (t :: ts)).Keeps K e n :=
      ih (cs ++ [c]) hes' h' fun es st ts => hnext (c' :: es) st (t :: ts)
    rwa [List.length_append] at hrest

/-- The plan for every node goes along with what goes along with every step. -/
theorem Expr.keeps_plan (hK : State.Scoped K) (e : Expr) {st : State} (h : K n st) :
    (e.plan st).Keeps K e n := by
  cases e with
  | absent => exact .fault h .absent
  | unit | bool _ | int _ => exact .finish h
  | var x =>
    rw [plan]
    split
    · exact .fault h .var
    · exact .finish (hK.instantiate _ h)
  | not e | neg e =>
    exact .look rfl (Nat.le_refl n) h fun _ _ _ h => .unify h fun _ h => .finish h
  | arith op l r =>
    exact .look rfl (Nat.le_refl n) h fun _ _ _ h => .look rfl (Nat.le_refl n) h fun _ _ _ h =>
      .unify h fun _ h => .unify h fun _ h => .finish h
  | eq l r =>
    exact .look rfl (Nat.le_refl n) h fun _ _ _ h => .look rfl (Nat.le_refl n) h fun _ _ _ h =>
      .unify h fun _ h => .finish h
  | le l r =>
    exact .look rfl (Nat.le_refl n) h fun _ _ _ h => .unify h fun _ h =>
      .look rfl (Nat.le_refl n) h fun _ _ _ h => .unify h fun _ h => .finish h
  | ite c e₁ e₂ =>
    exact .look rfl (Nat.le_refl n) h fun _ _ _ h => .unify h fun _ h =>
      .look rfl (Nat.le_refl n) h fun _ _ _ h => .look rfl (Nat.le_refl n) h fun _ _ _ h =>
        .unify h fun _ h => .finish h
  | letIn b v e =>
    exact .look rfl (Nat.le_refl n) (hK.declare b h) fun _ _ _ h => .unify h fun _ h =>
      .lookLast rfl (hK.bind _ (hK.refresh h))
  | letRec fn args body rest =>
    have henter := hK.enter args (hK.pushMono (st.declare fn).1.name (st.declare fn).1.slot
      (hK.declare fn h))
    rw [Nat.add_assoc, Nat.add_comm 1] at henter
    exact .look rfl (Nat.le_add_right n _) henter fun _ _ _ h => .leave h fun _ h =>
      .unify h fun _ h => .lookLast rfl (hK.bind _ (hK.refresh h))
  | app fn args slot =>
    exact .look rfl (Nat.le_refl n) h fun _ _ _ h => Plan.keeps_lookAll [fn] args rfl h
      fun _ _ _ h => .unify (hK.freshVar h) fun _ h => .finish h
  | tuple es => exact Plan.keeps_lookAll [] es rfl h fun _ _ _ h => .finish h
  | letTuple vars v e =>
    refine .look rfl (Nat.le_add_right n _) (hK.enter vars h) fun _ _ _ h => .leave h fun _ h =>
      .unify h fun st' h => .lookLast rfl ?_
    have hbind := hK.foldl_bind ((st.enter vars).1.map st'.resolve) (hK.refresh h)
    rwa [List.length_map] at hbind
  | foreign kind => exact .fault h .foreign

/-! ### Runs -/

/-- But for the events, the state has the property `K` with at least `n` names. -/
def State.Above (K : Nat → State → Prop) (n : Nat) (st : State) : Prop :=
  ∃ m st₀, n ≤ m ∧ K m st₀ ∧ st = { st₀ with trace := st.trace }

/-- A step that ends well has the property `K` with `n` names. One that fails does so with at least
`n` names, and not for want of a name to take off. -/
def Outcome.Restores (K : Nat → State → Prop) (n : Nat) (o : Outcome Expr Ty) : Prop :=
  match o.result with
  | .ok _ => K n o.state
  | .error f => f.error ≠ .scopeUnderflow ∧ o.state.Above K n

theorem State.above_self {st : State} (h : K n st) : st.Above K n :=
  ⟨n, st, Nat.le_refl n, h, rfl⟩

theorem State.Above.mono {st : State} {m : Nat} (h : st.Above K m) (hnm : n ≤ m) :
    st.Above K n := by
  obtain ⟨k, st₀, hk, hK, heq⟩ := h
  exact ⟨k, st₀, Nat.le_trans hnm hk, hK, heq⟩

/-- Names that are there can be taken off. -/
theorem State.Above.leave (hK : State.Scoped K) {st : State} {k : Nat} (h : st.Above K (n + k)) :
    ∃ st', st.leave? k = some st' ∧ st'.Above K n := by
  obtain ⟨m, st₀, hm, h, heq⟩ := h
  obtain ⟨j, rfl⟩ := Nat.exists_eq_add_of_le hm
  rw [Nat.add_right_comm] at h
  obtain ⟨st₁, hl, h₁⟩ := hK.leave h
  obtain ⟨hk, rfl⟩ := leave?_eq_some.1 hl
  rw [heq]
  exact ⟨_, leave?_eq_some.2 ⟨hk, rfl⟩, n + j, _, Nat.le_add_right n j, h₁, rfl⟩

/-- A step in which types cannot be made alike adds events and does nothing else. -/
theorem State.unify_eq_failed {st st' : State} {a b : Ty} {err : TypeError}
    (h : st.unify a b = (st', some err)) :
    st' = { st with trace := st.trace ++
        (solve [⟨a.apply st.subst, b.apply st.subst⟩]).solved.map .bound } ∧
      (solve [⟨a.apply st.subst, b.apply st.subst⟩]).failure = some err := by
  simp only [unify] at h
  split at h
  · rename_i e hf
    obtain ⟨rfl, herr⟩ := Prod.mk.inj h
    exact ⟨rfl, hf.trans herr⟩
  · exact absurd (congrArg Prod.snd h) (by simp)

theorem Plan.Keeps.restores (hK : State.Scoped K) {e : Expr} {p : Plan} (hp : p.Keeps K e n)
    (ih : ∀ c ∈ e.children, ∀ {m : Nat} {st : State}, K m st → (infer c st).Restores K m) :
    p.run.Restores K n := by
  induction hp with
  | finish h => exact h
  | fault h hf => exact ⟨hf.ne_scopeUnderflow, State.above_self h⟩
  | @look m i c st rebuild next hc hm h hnext ihnext =>
    have hchild := ih c (List.mem_of_getElem? hc) h
    rw [run, andThen]
    rw [Restores] at hchild
    split <;> rename_i hr <;> rw [hr] at hchild
    · exact ⟨hchild.1, hchild.2.mono hm⟩
    · exact ihnext _ _ _ hchild
  | @lookLast i k c st rebuild hc h =>
    -- the scope is left in both cases, and a child that failed may have left names on top of it
    have hchild := ih c (List.mem_of_getElem? hc) h
    rw [Restores] at hchild
    rw [run, leaving]
    cases hr : (infer c st).result with
    | ok t =>
      rw [hr] at hchild
      obtain ⟨st', hl, h'⟩ := hK.leave hchild
      rw [hl]
      exact h'
    | error f =>
      rw [hr] at hchild
      obtain ⟨st', hl, h'⟩ := hchild.2.leave hK
      rw [hl]
      exact ⟨hchild.1, h'⟩
  | @unify tree a b st next h hnext ihnext =>
    rw [run, State.unifyThen]
    split
    · rename_i st' err hu
      obtain ⟨rfl, -⟩ := State.unify_eq_failed hu
      exact ⟨by simp [Failure.here], n, st, Nat.le_refl n, h, rfl⟩
    · rename_i st' hu
      exact ihnext st' (hK.unify h hu)
  | @leave tree k st next h hnext ihnext =>
    obtain ⟨st', hl, h'⟩ := hK.leave h
    rw [run, State.leaveThen, hl]
    exact ihnext st' h'

/-- **Inference takes off the names that it adds.** What goes along with every step holds after
inference with as many names as before; if inference fails, with at least as many. -/
theorem infer_restores (hK : State.Scoped K) (e : Expr) {st : State} (h : K n st) :
    (infer e st).Restores K n := by
  induction e using Expr.ind generalizing n st with
  | node e ih =>
    rw [← e.run_plan]
    exact (e.keeps_plan hK h).restores hK fun c hc _ _ h => ih c hc h

/-- No run fails for want of a name to take off. -/
theorem error_ne_scopeUnderflow (e : Expr) {st : State} {f : Failure}
    (h : (infer e st).result = .error f) : f.error ≠ .scopeUnderflow := by
  have hrestores := infer_restores State.scoped_depth e (Nat.zero_le st.env.length)
  rw [Restores, h] at hrestores
  exact hrestores.1

/-! ### What holds at the moments of a run -/

/-- The step is one that the plan for the node `e`, which begins with `n` names, may take in the
state. -/
def Act.Safe (K : Nat → State → Prop) (e : Expr) (n : Nat) (st : State) : Act → Prop
  | .look i c => e.children[i]? = some c ∧ ∃ m, n ≤ m ∧ K m st
  | .unify _ _ => K n st
  | .leave k => st.Above K (n + k)
  | .fault f => e.Faulty f ∧ K n st

theorem Plan.Keeps.safe (hK : State.Scoped K) {e : Expr} {p : Plan} (hp : p.Keeps K e n) {act : Act}
    {st : State} (h : p.Takes act st) : act.Safe K e n st := by
  induction h with
  | fault =>
    obtain ⟨⟩ | ⟨h, hf⟩ := hp
    exact ⟨hf, h⟩
  | look =>
    cases hp with
    | look hc hm h _ => exact ⟨hc, _, hm, h⟩
  | @afterLook i c c' st st₁ st' t rebuild next act hc _ ih =>
    cases hp with
    | look _ _ h hnext =>
      have hchild := infer_restores hK c h
      rw [hc] at hchild
      exact ih (hnext _ _ _ hchild)
  | lookLast =>
    cases hp with
    | lookLast hc h => exact ⟨hc, _, Nat.le_add_right _ _, h⟩
  | @leaveLast i c k st rebuild =>
    cases hp with
    | lookLast _ h =>
      have hchild := infer_restores hK c h
      rw [Restores] at hchild
      split at hchild
      · exact State.above_self hchild
      · exact hchild.2
  | unify =>
    cases hp with
    | unify h _ => exact h
  | afterUnify hu _ ih =>
    cases hp with
    | unify h hnext => exact ih (hnext _ (hK.unify h hu))
  | leave =>
    cases hp with
    | leave h _ => exact State.above_self h
  | afterLeave hl _ ih =>
    cases hp with
    | leave h hnext =>
      obtain ⟨st', hl', h'⟩ := hK.leave h
      obtain rfl := Option.some.inj (hl.symm.trans hl')
      exact ih (hnext _ h')

/-- At the nodes that a run comes to, names have been added and none is missing. -/
theorem Visits.exists_scoped (hK : State.Scoped K) {e c : Expr} {st st' : State} {p : Expr.Path}
    (hv : Visits e st p c st') (h : K n st) : ∃ m, n ≤ m ∧ K m st' := by
  induction hv generalizing n with
  | here => exact ⟨n, Nat.le_refl n, h⟩
  | @child e c d st st₁ st₂ i p hc _ ih =>
    obtain ⟨-, m, hm, h₁⟩ := (e.keeps_plan hK h).safe hK hc
    obtain ⟨k, hk, h₂⟩ := ih h₁
    exact ⟨k, Nat.le_trans hm hk, h₂⟩

end Counting

/-- The nodes that a run comes to are nodes of the tree. -/
theorem Visits.at? {e c : Expr} {st st' : State} {p : Expr.Path} (hv : Visits e st p c st') :
    e.at? p = some c := by
  induction hv with
  | here => rfl
  | @child e c d st st₁ st₂ i p hc _ ih =>
    have hkeeps := e.keeps_plan State.scoped_depth (Nat.zero_le st.env.length)
    obtain ⟨hchild, -⟩ := hkeeps.safe State.scoped_depth hc
    rw [Expr.at?, hchild]
    exact ih

/-! ### Where a run fails -/

namespace Failure

theorem error_foldr_under (p : Expr.Path) (f : Failure) :
    (p.foldr under f).error = f.error := by
  induction p with
  | nil => rfl
  | cons i p ih => exact ih

theorem foldr_under_here (p : Expr.Path) (err : InferError) :
    p.foldr under (.here err) = ⟨err, some p⟩ := by
  induction p with
  | nil => rfl
  | cons i p ih =>
    rw [List.foldr_cons, ih]
    rfl

end Failure

/-- The step cannot be taken in the first state: it leaves the second one, with a failure. -/
inductive Act.Breaks : Act → State → State → Failure → Prop where
  | unify {a b : Ty} {st st' : State} {err : TypeError} (h : st.unify a b = (st', some err)) :
    Breaks (.unify a b) st st' (.here (.type err))
  | leave {n : Nat} {st : State} (h : st.leave? n = none) :
    Breaks (.leave n) st st (.here .scopeUnderflow)
  | fault {f : Failure} {st : State} : Breaks (.fault f) st st f

/-- The states differ at most in their environments. -/
def State.SameRest (st st' : State) : Prop :=
  st = { st' with env := st.env }

theorem State.SameRest.trans {st st₁ st₂ : State} (h : st.SameRest st₁) (h' : st₁.SameRest st₂) :
    st.SameRest st₂ := by
  rw [SameRest] at h h' ⊢
  rw [h, h']

theorem State.sameRest_of_leave {st st' : State} {n : Nat} (h : st.leave? n = some st') :
    st'.SameRest st := by
  obtain ⟨-, rfl⟩ := leave?_eq_some.1 h
  rfl

/-- A plan that fails does so in one of its steps, or a child that it looks at fails. -/
theorem Plan.fault_cases (p : Plan) {f : Failure} (h : p.run.result = .error f) :
    (∃ act st st', p.Takes act st ∧ act.Breaks st st' f ∧ p.run.state.SameRest st') ∨
      ∃ i c st f', p.Takes (.look i c) st ∧ (infer c st).result = .error f' ∧ f = f'.under i ∧
        p.run.state.SameRest (infer c st).state := by
  induction p with
  | finish tree st t => cases h
  | fault tree st f' =>
    obtain rfl := Except.error.inj h
    exact .inl ⟨_, st, st, .fault, .fault, rfl⟩
  | look i c st rebuild next ih =>
    rw [run, andThen] at h ⊢
    cases hr : (infer c st).result with
    | error f' =>
      simp only [hr] at h ⊢
      exact .inr ⟨i, c, st, f', .look, hr, (Except.error.inj h).symm, rfl⟩
    | ok t =>
      simp only [hr] at h ⊢
      have hdone := eq_done_of_result hr
      rcases ih _ _ _ h with ⟨act, st₁, st₂, htakes, hrest⟩ | ⟨j, d, st₁, f', htakes, hrest⟩
      · exact .inl ⟨act, st₁, st₂, .afterLook hdone htakes, hrest⟩
      · exact .inr ⟨j, d, st₁, f', .afterLook hdone htakes, hrest⟩
  | lookLast i c n st rebuild =>
    rw [run, leaving] at h ⊢
    cases hl : (infer c st).state.leave? n with
    | none =>
      simp only [hl] at h ⊢
      obtain rfl := Except.error.inj h
      exact .inl ⟨_, _, _, .leaveLast, .leave hl, rfl⟩
    | some st' =>
      cases hr : (infer c st).result with
      | ok t =>
        simp only [hl, hr] at h
        cases h
      | error f' =>
        simp only [hl, hr] at h ⊢
        exact .inr ⟨i, c, st, f', .lookLast, hr, (Except.error.inj h).symm,
          State.sameRest_of_leave hl⟩
  | unify tree a b st next ih =>
    rw [run, State.unifyThen] at h ⊢
    rcases hu : st.unify a b with ⟨st₁, _ | err⟩
    · simp only [hu] at h ⊢
      rcases ih st₁ h with ⟨act, st₂, st₃, htakes, hrest⟩ | ⟨j, d, st₂, f', htakes, hrest⟩
      · exact .inl ⟨act, st₂, st₃, .afterUnify hu htakes, hrest⟩
      · exact .inr ⟨j, d, st₂, f', .afterUnify hu htakes, hrest⟩
    · simp only [hu] at h ⊢
      obtain rfl := Except.error.inj h
      exact .inl ⟨_, st, st₁, .unify, .unify hu, rfl⟩
  | leave tree n st next ih =>
    rw [run, State.leaveThen] at h ⊢
    cases hl : st.leave? n with
    | none =>
      simp only [hl] at h ⊢
      obtain rfl := Except.error.inj h
      exact .inl ⟨_, st, st, .leave, .leave hl, rfl⟩
    | some st₁ =>
      simp only [hl] at h ⊢
      rcases ih st₁ h with ⟨act, st₂, st₃, htakes, hrest⟩ | ⟨j, d, st₂, f', htakes, hrest⟩
      · exact .inl ⟨act, st₂, st₃, .afterLeave hl htakes, hrest⟩
      · exact .inr ⟨j, d, st₂, f', .afterLeave hl htakes, hrest⟩

/-- **A run that fails does so in one step**, at a node that it has come to, and all it does after
that is to take off names. -/
theorem exists_fault (e : Expr) {st : State} {f : Failure} (h : (infer e st).result = .error f) :
    ∃ p c st₁ act st₂ st₃ f₀, Visits e st p c st₁ ∧ (c.plan st₁).Takes act st₂ ∧
      act.Breaks st₂ st₃ f₀ ∧ f = p.foldr Failure.under f₀ ∧ (infer e st).state.SameRest st₃ := by
  induction e using Expr.ind generalizing st f with
  | node e ih =>
    rw [← e.run_plan] at h ⊢
    rcases (e.plan st).fault_cases h with
      ⟨act, st₂, st₃, htakes, hbreaks, hsame⟩ | ⟨i, c, st₁, f', htakes, hc, rfl, hsame⟩
    · exact ⟨[], e, st, act, st₂, st₃, f, .here, htakes, hbreaks, rfl, hsame⟩
    · have hkeeps := e.keeps_plan State.scoped_depth (Nat.zero_le st.env.length)
      obtain ⟨hchild, -⟩ := hkeeps.safe State.scoped_depth htakes
      obtain ⟨p, d, st₂, act, st₃, st₄, f₀, hv, htakes', hbreaks, rfl, hsame'⟩ :=
        ih c (List.mem_of_getElem? hchild) hc
      exact ⟨i :: p, d, st₂, act, st₃, st₄, f₀, .child htakes hv, htakes', hbreaks, rfl,
        hsame.trans hsame'⟩

end LetPoly
