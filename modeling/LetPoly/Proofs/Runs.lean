import LetPoly.Inference.Infer
import Mathlib.Tactic.Common

/-!
# Runs of type inference

What inference does when it ends well, as a relation with one rule for each kind of node. The rules
name the states between the steps, so that later proofs follow a run step by step. The relation
leaves out runs in which the supply of fresh variables overflows; which ids were drawn can be read
off the trace, and the trace only grows.

## Main definitions

* `NoWrap`: no id that was drawn is the last one before the supply overflows.
* `Outcome.Keeps`: a step that has added to the trace of a state.
* `Declares`, `Enters`: bindings that are given types, in the current scope and in scopes of their
  own.
* `Infers`, `InfersAll`: runs that end well.

## Main results

* `infer_keeps`: inference forgets nothing of the trace.
* `infers_of_infer`: inference that ends well, without overflow, is such a run.
-/

namespace LetPoly

open Outcome

/-! ### Ids drawn -/

/-- The largest id; the supply starts over after it. -/
def Supply.last : Int := 0x7fffffffffffffff

/-- Every id that was drawn has a successor. -/
def NoWrap (events : List Event) : Prop :=
  ∀ v, .drawn v ∈ events → v < Supply.last

/-- The event is not the draw of the last id. -/
def Event.hasRoom : Event → Bool
  | .drawn v => v < Supply.last
  | _ => true

theorem noWrap_iff {events : List Event} : NoWrap events ↔ events.all Event.hasRoom = true := by
  rw [List.all_eq_true]
  constructor
  · intro h x hx
    cases x with
    | drawn v => exact decide_eq_true (h v hx)
    | _ => rfl
  · exact fun h v hv => of_decide_eq_true (h _ hv)

theorem NoWrap.of_isPrefix {xs ys : List Event} (h : NoWrap ys) (hp : xs <+: ys) : NoWrap xs :=
  fun v hv => h v (hp.mem hv)

/-! ### Steps that end well -/

namespace Outcome

variable {τ τ' ρ ρ' : Type}

@[simp] theorem done_inj {a a' : τ} {st st' : State} {v v' : ρ} :
    done a st v = done a' st' v' ↔ a = a' ∧ st = st' ∧ v = v' := by
  simp [done]

@[simp] theorem failed_ne_done {a a' : τ} {st st' : State} {f : Failure} {v : ρ} :
    failed a st f ≠ done a' st' v := by
  simp [done, failed]

theorem eq_done_of_result {o : Outcome τ ρ} {v : ρ} (h : o.result = .ok v) :
    o = done o.tree o.state v := by
  rw [done, ← h]

theorem andThen_eq_done {o : Outcome τ ρ} {rebuild : τ → τ'} {blame : Failure → Failure}
    {next : τ → State → ρ → Outcome τ' ρ'} {a' : τ'} {st' : State} {v' : ρ'} :
    o.andThen rebuild blame next = done a' st' v' ↔
      ∃ a st v, o = done a st v ∧ next a st v = done a' st' v' := by
  constructor
  · intro h
    cases hr : o.result with
    | error f => simp [andThen, hr] at h
    | ok v =>
      refine ⟨o.tree, o.state, v, eq_done_of_result hr, ?_⟩
      simpa only [andThen, hr] using h
  · rintro ⟨a, st, v, rfl, h⟩
    exact h

theorem leaving_eq_done {o : Outcome Expr Ty} {rebuild : Expr → Expr} {i n : Nat} {e' : Expr}
    {st' : State} {t : Ty} :
    o.leaving rebuild i n = done e' st' t ↔
      ∃ e st, o = done e st t ∧ st.leave? n = some st' ∧ rebuild e = e' := by
  constructor
  · intro h
    cases hl : o.state.leave? n with
    | none => simp [leaving, hl] at h
    | some st =>
      cases hr : o.result with
      | error f => simp [leaving, hl, hr] at h
      | ok u =>
        simp only [leaving, hl, hr, done_inj] at h
        obtain ⟨rfl, rfl, rfl⟩ := h
        exact ⟨o.tree, o.state, eq_done_of_result hr, hl, rfl⟩
  · rintro ⟨e, st, rfl, hl, rfl⟩
    simp [leaving, hl, done]

end Outcome

namespace State

theorem unifyThen_eq_done {st : State} {tree : Expr} {a b : Ty} {next : State → Outcome Expr Ty}
    {e' : Expr} {st' : State} {t : Ty} :
    st.unifyThen tree a b next = done e' st' t ↔
      ∃ st₁, st.unify a b = (st₁, none) ∧ next st₁ = done e' st' t := by
  rw [unifyThen]
  split
  · rename_i st₁ e h
    simp [h]
  · rename_i st₁ h
    simp [h]

theorem leaveThen_eq_done {st : State} {tree : Expr} {n : Nat} {next : State → Outcome Expr Ty}
    {e' : Expr} {st' : State} {t : Ty} :
    st.leaveThen tree n next = done e' st' t ↔
      ∃ st₁, st.leave? n = some st₁ ∧ next st₁ = done e' st' t := by
  rw [leaveThen]
  split
  · rename_i h
    simp [h]
  · rename_i st₁ h
    simp [h]

theorem constrain_eq_done {st : State} {tree : Expr} {a b r : Ty} {e' : Expr} {st' : State}
    {t : Ty} :
    st.constrain tree a b r = done e' st' t ↔
      tree = e' ∧ st.unify a b = (st', none) ∧ r = t := by
  rw [constrain, unifyThen_eq_done]
  constructor
  · rintro ⟨st₁, h, hd⟩
    obtain ⟨rfl, rfl, rfl⟩ := done_inj.1 hd
    exact ⟨rfl, h, rfl⟩
  · rintro ⟨rfl, h, rfl⟩
    exact ⟨st', h, rfl⟩

@[simp] theorem resolve_refresh (st : State) : st.refresh.resolve = st.resolve := rfl

/-! ### The trace grows -/

theorem trace_prefix_unify (st : State) (a b : Ty) : st.trace <+: (st.unify a b).1.trace := by
  simp only [unify]
  split <;> exact List.prefix_append _ _

theorem trace_prefix_freshVar (st : State) : st.trace <+: st.freshVar.2.trace :=
  List.prefix_append _ _

theorem trace_prefix_instantiate (st : State) (σ : Scheme) :
    st.trace <+: (st.instantiate σ).2.trace :=
  List.prefix_append _ _

theorem trace_prefix_declare (st : State) (b : Binding) : st.trace <+: (st.declare b).2.trace := by
  rw [declare]
  split
  · exact st.trace_prefix_freshVar
  · exact List.prefix_refl _

theorem trace_prefix_enter (st : State) (bs : List Binding) :
    st.trace <+: (st.enter bs).2.trace := by
  induction bs generalizing st with
  | nil => exact List.prefix_refl _
  | cons b bs ih =>
    exact (st.trace_prefix_declare b).trans
      (ih ((st.declare b).2.pushMono (st.declare b).1.name (st.declare b).1.slot))

theorem trace_prefix_bind (st : State) (b : Binding) : st.trace <+: (st.bind b).trace :=
  List.prefix_append _ _

theorem trace_prefix_refresh (st : State) : st.trace <+: st.refresh.trace :=
  List.prefix_append _ _

theorem trace_prefix_foldl_bind (st : State) (bs : List Binding) :
    st.trace <+: (bs.foldl bind st).trace := by
  induction bs generalizing st with
  | nil => exact List.prefix_refl _
  | cons b bs ih => exact (st.trace_prefix_bind b).trans (ih _)

theorem subst_foldl_bind (st : State) (bs : List Binding) :
    (bs.foldl bind st).subst = st.subst := by
  induction bs generalizing st with
  | nil => rfl
  | cons b bs ih => exact ih (st.bind b)

theorem supply_foldl_bind (st : State) (bs : List Binding) :
    (bs.foldl bind st).supply = st.supply := by
  induction bs generalizing st with
  | nil => rfl
  | cons b bs ih => exact ih (st.bind b)

theorem trace_leave? {st st' : State} {n : Nat} (h : st.leave? n = some st') :
    st'.trace = st.trace := by
  obtain ⟨env, -, rfl⟩ := Option.map_eq_some_iff.1 h
  rfl

end State

/-- The trace of the state is the beginning of the trace after the step. -/
def Outcome.Keeps {τ ρ : Type} (o : Outcome τ ρ) (st : State) : Prop :=
  st.trace <+: o.state.trace

namespace Outcome

variable {τ τ' ρ ρ' : Type}

theorem Keeps.of_isPrefix {o : Outcome τ ρ} {st st₁ : State} (h : o.Keeps st₁)
    (hp : st.trace <+: st₁.trace) : o.Keeps st :=
  hp.trans h

theorem keeps_done (a : τ) (st : State) (v : ρ) : (done a st v).Keeps st :=
  List.prefix_refl _

/-- Work in the scope of generalized bindings. -/
theorem Keeps.of_refresh {o : Outcome τ ρ} {st : State} (bs : List Binding)
    (h : o.Keeps (bs.foldl State.bind st.refresh)) : o.Keeps st :=
  h.of_isPrefix (st.trace_prefix_refresh.trans (st.refresh.trace_prefix_foldl_bind bs))

/-- What follows a step leaves the trace of the step in place. -/
theorem prefix_andThen (o : Outcome τ ρ) (rebuild : τ → τ') (blame : Failure → Failure)
    {next : τ → State → ρ → Outcome τ' ρ'} (h : ∀ a st v, (next a st v).Keeps st) :
    o.state.trace <+: (o.andThen rebuild blame next).state.trace := by
  rw [andThen]
  split
  · exact List.prefix_refl _
  · exact h _ _ _

theorem Keeps.andThen {o : Outcome τ ρ} {st : State} (ho : o.Keeps st) {rebuild : τ → τ'}
    {blame : Failure → Failure} {next : τ → State → ρ → Outcome τ' ρ'}
    (h : ∀ a st v, (next a st v).Keeps st) : (o.andThen rebuild blame next).Keeps st :=
  ho.trans (o.prefix_andThen rebuild blame h)

theorem state_trace_leaving (o : Outcome Expr Ty) (rebuild : Expr → Expr) (i n : Nat) :
    (o.leaving rebuild i n).state.trace = o.state.trace := by
  rw [leaving]
  split
  · rfl
  · rename_i st h
    split <;> exact State.trace_leave? h

theorem Keeps.leaving {o : Outcome Expr Ty} {st : State} (ho : o.Keeps st)
    (rebuild : Expr → Expr) (i n : Nat) : (o.leaving rebuild i n).Keeps st := by
  rw [Keeps, state_trace_leaving]
  exact ho

theorem keeps_unifyThen (st : State) (tree : Expr) (a b : Ty) {next : State → Outcome Expr Ty}
    (h : ∀ st, (next st).Keeps st) : (st.unifyThen tree a b next).Keeps st := by
  have hp := st.trace_prefix_unify a b
  rw [State.unifyThen]
  split
  · rename_i st₁ e heq
    rwa [heq] at hp
  · rename_i st₁ heq
    rw [heq] at hp
    exact (h st₁).of_isPrefix hp

theorem keeps_leaveThen (st : State) (tree : Expr) (n : Nat) {next : State → Outcome Expr Ty}
    (h : ∀ st, (next st).Keeps st) : (st.leaveThen tree n next).Keeps st := by
  rw [State.leaveThen]
  split
  · exact List.prefix_refl _
  · rename_i st₁ heq
    have htrace : st.trace <+: st₁.trace := State.trace_leave? heq ▸ List.prefix_refl _
    exact (h st₁).of_isPrefix htrace

theorem keeps_constrain (st : State) (tree : Expr) (a b r : Ty) :
    (st.constrain tree a b r).Keeps st :=
  keeps_unifyThen st tree a b fun st => keeps_done tree st r

end Outcome

mutual

/-- Inference forgets nothing of the trace. -/
theorem infer_keeps : (e : Expr) → (st : State) → (infer e st).Keeps st
  | .absent, _ => List.prefix_refl _
  | .unit, _ => List.prefix_refl _
  | .bool _, _ => List.prefix_refl _
  | .int _, _ => List.prefix_refl _
  | .var x, st => by
    rw [infer]
    split
    · exact List.prefix_refl _
    · exact st.trace_prefix_instantiate _
  | .not e, st => (infer_keeps e st).andThen fun e st t => keeps_constrain st (.not e) .bool t .bool
  | .neg e, st => (infer_keeps e st).andThen fun e st t => keeps_constrain st (.neg e) .int t .int
  | .arith _ l r, st =>
    (infer_keeps l st).andThen fun _ st t₁ => (infer_keeps r st).andThen fun _ st t₂ =>
      keeps_unifyThen st _ t₁ t₂ fun st => keeps_constrain st _ t₁ .int .int
  | .eq l r, st =>
    (infer_keeps l st).andThen fun _ st t₁ => (infer_keeps r st).andThen fun _ st t₂ =>
      keeps_constrain st _ t₁ t₂ .bool
  | .le l r, st =>
    (infer_keeps l st).andThen fun _ st t₁ => keeps_unifyThen st _ .int t₁ fun st =>
      (infer_keeps r st).andThen fun _ st t₂ => keeps_constrain st _ .int t₂ .bool
  | .ite c e₁ e₂, st =>
    (infer_keeps c st).andThen fun _ st t₁ => keeps_unifyThen st _ .bool t₁ fun st =>
      (infer_keeps e₁ st).andThen fun _ st t₂ => (infer_keeps e₂ st).andThen fun _ st t₃ =>
        keeps_unifyThen st _ t₂ t₃ fun _ => List.prefix_refl _
  | .letIn b v e, st =>
    ((infer_keeps v _).of_isPrefix (st.trace_prefix_declare b)).andThen fun _ st t =>
      keeps_unifyThen st _ _ t fun st =>
        (Keeps.of_refresh [st.resolve _] (infer_keeps e _)).leaving _ 1 1
  | .letRec fn args body rest, st =>
    ((infer_keeps body _).of_isPrefix ((st.trace_prefix_declare fn).trans
        (((st.declare fn).2.pushMono _ _).trace_prefix_enter args))).andThen fun _ st ret =>
      keeps_leaveThen st _ _ fun st => keeps_unifyThen st _ _ _ fun st =>
        (Keeps.of_refresh [st.resolve _] (infer_keeps rest _)).leaving _ 1 1
  | .app fn args slot, st =>
    (infer_keeps fn st).andThen fun fn st t => (inferAll_keeps 1 args st).andThen fun args st ts =>
      (keeps_unifyThen st.freshVar.2 (.app fn args slot) (.arrow ts st.freshVar.1) t fun st₁ =>
        keeps_done (.app fn args (st.freshVar.1.apply st₁.subst)) st₁ _).of_isPrefix
        st.trace_prefix_freshVar
  | .tuple es, st => (inferAll_keeps 0 es st).andThen fun _ _ _ => List.prefix_refl _
  | .letTuple vars v e, st =>
    ((infer_keeps v _).of_isPrefix (st.trace_prefix_enter vars)).andThen fun _ st t =>
      keeps_leaveThen st _ _ fun st => keeps_unifyThen st _ t _ fun _ =>
        (Keeps.of_refresh _ (infer_keeps e _)).leaving _ 1 _
  | .foreign _, _ => List.prefix_refl _

theorem inferAll_keeps (i : Nat) : (es : List Expr) → (st : State) → (inferAll i es st).Keeps st
  | [], _ => List.prefix_refl _
  | e :: es, st =>
    (infer_keeps e st).andThen fun _ st _ => (inferAll_keeps (i + 1) es st).andThen fun _ _ _ =>
      List.prefix_refl _

end

/-! ### Runs that end well -/

/-- A binding is given a type: the one declared for it, or a fresh variable. -/
inductive Declares : State → Binding → Binding → State → Prop where
  | given {st : State} {b : Binding} (h : b.slot.isAbsent = false) : Declares st b b st
  | fresh {st : State} {b : Binding} (h : b.slot.isAbsent = true)
    (hroom : st.supply.next < Supply.last) :
    Declares st b { b with slot := st.freshVar.1 } st.freshVar.2

/-- Bindings are given types one after the other, each one in scope from then on. -/
inductive Enters : State → List Binding → List Binding → State → Prop where
  | nil {st : State} : Enters st [] [] st
  | cons {st st₁ st₂ : State} {b b' : Binding} {bs bs' : List Binding} (hb : Declares st b b' st₁)
    (hbs : Enters (st₁.pushMono b'.name b'.slot) bs bs' st₂) : Enters st (b :: bs) (b' :: bs') st₂

mutual

/-- Inference looks at the expression in the first state and ends well, without overflow: it gives
back the tree, the state and the type. -/
inductive Infers : Expr → State → Expr → State → Ty → Prop where
  | unit {st : State} : Infers .unit st .unit st .unit
  | bool {st : State} {b : Bool} : Infers (.bool b) st (.bool b) st .bool
  | int {st : State} {n : Int} : Infers (.int n) st (.int n) st .int
  | var {st : State} {x : String} {σ : Scheme} (hx : st.env.lookup x = some σ)
    (hroom : ∀ v ∈ (st.supply.freshList σ.bound.size).1, v < Supply.last) :
    Infers (.var x) st (.var x) (st.instantiate σ).2 (st.instantiate σ).1
  | not {st st₁ st' : State} {e e' : Expr} {t : Ty} (he : Infers e st e' st₁ t)
    (hu : st₁.unify .bool t = (st', none)) : Infers (.not e) st (.not e') st' .bool
  | neg {st st₁ st' : State} {e e' : Expr} {t : Ty} (he : Infers e st e' st₁ t)
    (hu : st₁.unify .int t = (st', none)) : Infers (.neg e) st (.neg e') st' .int
  | arith {st st₁ st₂ st₃ st' : State} {op : ArithOp} {l l' r r' : Expr} {t₁ t₂ : Ty}
    (hl : Infers l st l' st₁ t₁) (hr : Infers r st₁ r' st₂ t₂)
    (hu : st₂.unify t₁ t₂ = (st₃, none)) (hu' : st₃.unify t₁ .int = (st', none)) :
    Infers (.arith op l r) st (.arith op l' r') st' .int
  | eq {st st₁ st₂ st' : State} {l l' r r' : Expr} {t₁ t₂ : Ty} (hl : Infers l st l' st₁ t₁)
    (hr : Infers r st₁ r' st₂ t₂) (hu : st₂.unify t₁ t₂ = (st', none)) :
    Infers (.eq l r) st (.eq l' r') st' .bool
  | le {st st₁ st₂ st₃ st' : State} {l l' r r' : Expr} {t₁ t₂ : Ty} (hl : Infers l st l' st₁ t₁)
    (hu : st₁.unify .int t₁ = (st₂, none)) (hr : Infers r st₂ r' st₃ t₂)
    (hu' : st₃.unify .int t₂ = (st', none)) : Infers (.le l r) st (.le l' r') st' .bool
  | ite {st st₁ st₂ st₃ st₄ st' : State} {c c' e₁ e₁' e₂ e₂' : Expr} {t₁ t₂ t₃ : Ty}
    (hc : Infers c st c' st₁ t₁) (hu : st₁.unify .bool t₁ = (st₂, none))
    (h₁ : Infers e₁ st₂ e₁' st₃ t₂) (h₂ : Infers e₂ st₃ e₂' st₄ t₃)
    (hu' : st₄.unify t₂ t₃ = (st', none)) :
    Infers (.ite c e₁ e₂) st (.ite c' e₁' e₂') st' (t₂.apply st'.subst)
  | letIn {st st₁ st₂ st₃ st₄ st' : State} {b b' : Binding} {v v' e e' : Expr} {t₁ t : Ty}
    (hb : Declares st b b' st₁) (hv : Infers v st₁ v' st₂ t₁)
    (hu : st₂.unify b'.slot t₁ = (st₃, none))
    (he : Infers e (st₃.refresh.bind (st₃.resolve b')) e' st₄ t) (hl : st₄.leave? 1 = some st') :
    Infers (.letIn b v e) st (.letIn (st₃.resolve b') v' e') st' t
  | letRec {st st₁ st₂ st₃ st₄ st₅ st₆ st' : State} {fn fn' : Binding} {args args' : List Binding}
    {body body' rest rest' : Expr} {ret t : Ty} (hfn : Declares st fn fn' st₁)
    (hargs : Enters (st₁.pushMono fn'.name fn'.slot) args args' st₂)
    (hbody : Infers body st₂ body' st₃ ret) (hl : st₃.leave? (args'.length + 1) = some st₄)
    (hu : st₄.unify fn'.slot (.arrow (args'.map (·.slot)) ret) = (st₅, none))
    (hrest : Infers rest (st₅.refresh.bind (st₅.resolve fn')) rest' st₆ t)
    (hl' : st₆.leave? 1 = some st') :
    Infers (.letRec fn args body rest) st
      (.letRec (st₅.resolve fn') (args'.map st₅.resolve) body' rest') st' t
  | app {st st₁ st₂ st' : State} {fn fn' : Expr} {args args' : List Expr} {slot t : Ty}
    {ts : List Ty} (hfn : Infers fn st fn' st₁ t) (hargs : InfersAll args st₁ args' st₂ ts)
    (hroom : st₂.supply.next < Supply.last)
    (hu : st₂.freshVar.2.unify (.arrow ts st₂.freshVar.1) t = (st', none)) :
    Infers (.app fn args slot) st (.app fn' args' (st₂.freshVar.1.apply st'.subst)) st'
      (st₂.freshVar.1.apply st'.subst)
  | tuple {st st' : State} {es es' : List Expr} {ts : List Ty} (hes : InfersAll es st es' st' ts) :
    Infers (.tuple es) st (.tuple es') st' (.tuple ts)
  | letTuple {st st₁ st₂ st₃ st₄ st₅ st' : State} {vars vars' : List Binding} {v v' e e' : Expr}
    {t₁ t : Ty} (hvars : Enters st vars vars' st₁) (hv : Infers v st₁ v' st₂ t₁)
    (hl : st₂.leave? vars'.length = some st₃)
    (hu : st₃.unify t₁ (.tuple (vars'.map (·.slot))) = (st₄, none))
    (he : Infers e ((vars'.map st₄.resolve).foldl State.bind st₄.refresh) e' st₅ t)
    (hl' : st₅.leave? vars'.length = some st') :
    Infers (.letTuple vars v e) st (.letTuple (vars'.map st₄.resolve) v' e') st' t

/-- The same for a list of expressions, from left to right. -/
inductive InfersAll : List Expr → State → List Expr → State → List Ty → Prop where
  | nil {st : State} : InfersAll [] st [] st []
  | cons {st st₁ st' : State} {e e' : Expr} {es es' : List Expr} {t : Ty} {ts : List Ty}
    (he : Infers e st e' st₁ t) (hes : InfersAll es st₁ es' st' ts) :
    InfersAll (e :: es) st (e' :: es') st' (t :: ts)

end

/-! ### From inference to runs -/

section Prefixes

variable {st st' : State}

theorem NoWrap.of_unify {a b : Ty} (hw : NoWrap st'.trace) (h : st.unify a b = (st', none)) :
    NoWrap st.trace := by
  have hp := st.trace_prefix_unify a b
  rw [h] at hp
  exact hw.of_isPrefix hp

theorem NoWrap.of_leave {n : Nat} (hw : NoWrap st'.trace) (h : st.leave? n = some st') :
    NoWrap st.trace :=
  State.trace_leave? h ▸ hw

theorem NoWrap.of_infer {e e' : Expr} {t : Ty} (hw : NoWrap st'.trace)
    (h : infer e st = done e' st' t) : NoWrap st.trace := by
  have hp := infer_keeps e st
  rw [h] at hp
  exact hw.of_isPrefix hp

theorem NoWrap.of_inferAll {i : Nat} {es es' : List Expr} {ts : List Ty} (hw : NoWrap st'.trace)
    (h : inferAll i es st = done es' st' ts) : NoWrap st.trace := by
  have hp := inferAll_keeps i es st
  rw [h] at hp
  exact hw.of_isPrefix hp

theorem NoWrap.of_refresh_bind {b : Binding} (hw : NoWrap (st.refresh.bind b).trace) :
    NoWrap st.trace :=
  hw.of_isPrefix (st.trace_prefix_refresh.trans (st.refresh.trace_prefix_bind b))

theorem NoWrap.next_lt (hw : NoWrap st.freshVar.2.trace) : st.supply.next < Supply.last :=
  hw _ (List.mem_append_right _ (List.mem_singleton.2 rfl))

end Prefixes

theorem declares_of_declare (st : State) (b : Binding) (hw : NoWrap (st.declare b).2.trace) :
    Declares st b (st.declare b).1 (st.declare b).2 := by
  cases h : b.slot.isAbsent with
  | false =>
    rw [State.declare, if_neg (by simp [h])]
    exact .given h
  | true =>
    rw [State.declare, if_pos h] at hw ⊢
    exact .fresh h hw.next_lt

theorem enters_of_enter (st : State) (bs : List Binding) (hw : NoWrap (st.enter bs).2.trace) :
    Enters st bs (st.enter bs).1 (st.enter bs).2 := by
  induction bs generalizing st with
  | nil => exact .nil
  | cons b bs ih =>
    let st₁ := (st.declare b).2.pushMono (st.declare b).1.name (st.declare b).1.slot
    exact .cons (declares_of_declare st b (hw.of_isPrefix (st₁.trace_prefix_enter bs))) (ih st₁ hw)

mutual

/-- Inference that ends well without overflow is a run. -/
theorem infers_of_infer : (e : Expr) → (st : State) → {e' : Expr} → {st' : State} → {t : Ty} →
    infer e st = done e' st' t → NoWrap st'.trace → Infers e st e' st' t
  | .absent, st, e', st', t, h, hw => by
    rw [infer] at h
    exact absurd h failed_ne_done
  | .unit, st, e', st', t, h, hw => by
    rw [infer] at h
    obtain ⟨rfl, rfl, rfl⟩ := done_inj.1 h
    exact .unit
  | .bool b, st, e', st', t, h, hw => by
    rw [infer] at h
    obtain ⟨rfl, rfl, rfl⟩ := done_inj.1 h
    exact .bool
  | .int n, st, e', st', t, h, hw => by
    rw [infer] at h
    obtain ⟨rfl, rfl, rfl⟩ := done_inj.1 h
    exact .int
  | .var x, st, e', st', t, h, hw => by
    rw [infer] at h
    split at h
    · exact absurd h failed_ne_done
    · rename_i σ hx
      obtain ⟨rfl, rfl, rfl⟩ := done_inj.1 h
      exact .var hx fun v hv => hw v (List.mem_append_right _ (List.mem_map_of_mem hv))
  | .not e, st, e', st', t, h, hw => by
    simp only [infer, andThen_eq_done, State.constrain_eq_done] at h
    obtain ⟨e₁, st₁, t₁, he, rfl, hu, rfl⟩ := h
    exact .not (infers_of_infer e st he (hw.of_unify hu)) hu
  | .neg e, st, e', st', t, h, hw => by
    simp only [infer, andThen_eq_done, State.constrain_eq_done] at h
    obtain ⟨e₁, st₁, t₁, he, rfl, hu, rfl⟩ := h
    exact .neg (infers_of_infer e st he (hw.of_unify hu)) hu
  | .arith op l r, st, e', st', t, h, hw => by
    simp only [infer, andThen_eq_done, State.unifyThen_eq_done, State.constrain_eq_done] at h
    obtain ⟨l', st₁, t₁, hl, r', st₂, t₂, hr, st₃, hu, rfl, hu', rfl⟩ := h
    have hw₂ := (hw.of_unify hu').of_unify hu
    exact .arith (infers_of_infer l st hl (hw₂.of_infer hr)) (infers_of_infer r st₁ hr hw₂) hu hu'
  | .eq l r, st, e', st', t, h, hw => by
    simp only [infer, andThen_eq_done, State.constrain_eq_done] at h
    obtain ⟨l', st₁, t₁, hl, r', st₂, t₂, hr, rfl, hu, rfl⟩ := h
    have hw₂ := hw.of_unify hu
    exact .eq (infers_of_infer l st hl (hw₂.of_infer hr)) (infers_of_infer r st₁ hr hw₂) hu
  | .le l r, st, e', st', t, h, hw => by
    simp only [infer, andThen_eq_done, State.unifyThen_eq_done, State.constrain_eq_done] at h
    obtain ⟨l', st₁, t₁, hl, st₂, hu, r', st₃, t₂, hr, rfl, hu', rfl⟩ := h
    have hw₃ := hw.of_unify hu'
    exact .le (infers_of_infer l st hl ((hw₃.of_infer hr).of_unify hu)) hu
      (infers_of_infer r st₂ hr hw₃) hu'
  | .ite c e₁ e₂, st, e', st', t, h, hw => by
    simp only [infer, andThen_eq_done, State.unifyThen_eq_done, done_inj] at h
    obtain ⟨c', st₁, t₁, hc, st₂, hu, e₁', st₃, t₂, h₁, e₂', st₄, t₃, h₂, st₅, hu', rfl, rfl,
      rfl⟩ := h
    have hw₄ := hw.of_unify hu'
    have hw₃ := hw₄.of_infer h₂
    exact .ite (infers_of_infer c st hc ((hw₃.of_infer h₁).of_unify hu)) hu
      (infers_of_infer e₁ st₂ h₁ hw₃) (infers_of_infer e₂ st₃ h₂ hw₄) hu'
  | .letIn b v e, st, e', st', t, h, hw => by
    simp only [infer, andThen_eq_done, State.unifyThen_eq_done, leaving_eq_done,
      State.resolve_refresh] at h
    obtain ⟨v', st₂, t₁, hv, st₃, hu, e₁, st₄, he, hl, rfl⟩ := h
    have hw₄ := hw.of_leave hl
    have hw₂ := (hw₄.of_infer he).of_refresh_bind.of_unify hu
    exact .letIn (declares_of_declare st b (hw₂.of_infer hv))
      (infers_of_infer v (st.declare b).2 hv hw₂) hu (infers_of_infer e _ he hw₄) hl
  | .letRec fn args body rest, st, e', st', t, h, hw => by
    simp only [infer, andThen_eq_done, State.unifyThen_eq_done, State.leaveThen_eq_done,
      leaving_eq_done, State.resolve_refresh] at h
    obtain ⟨body', st₃, ret, hbody, st₄, hl, st₅, hu, rest', st₆, hrest, hl', rfl⟩ := h
    have hw₆ := hw.of_leave hl'
    have hw₃ := ((hw₆.of_infer hrest).of_refresh_bind.of_unify hu).of_leave hl
    have hw₂ := hw₃.of_infer hbody
    let st₁ := (st.declare fn).2.pushMono (st.declare fn).1.name (st.declare fn).1.slot
    exact .letRec (declares_of_declare st fn (hw₂.of_isPrefix (st₁.trace_prefix_enter args)))
      (enters_of_enter st₁ args hw₂) (infers_of_infer body _ hbody hw₃) hl hu
      (infers_of_infer rest _ hrest hw₆) hl'
  | .app fn args slot, st, e', st', t, h, hw => by
    simp only [infer, andThen_eq_done, State.unifyThen_eq_done, done_inj] at h
    obtain ⟨fn', st₁, t₁, hfn, args', st₂, ts, hargs, st₃, hu, rfl, rfl, rfl⟩ := h
    have hw' := hw.of_unify hu
    have hw₂ := hw'.of_isPrefix st₂.trace_prefix_freshVar
    exact .app (infers_of_infer fn st hfn (hw₂.of_inferAll hargs))
      (infersAll_of_inferAll 1 args st₁ hargs hw₂) hw'.next_lt hu
  | .tuple es, st, e', st', t, h, hw => by
    simp only [infer, andThen_eq_done, done_inj] at h
    obtain ⟨es', st₁, ts, hes, rfl, rfl, rfl⟩ := h
    exact .tuple (infersAll_of_inferAll 0 es st hes hw)
  | .letTuple vars v e, st, e', st', t, h, hw => by
    simp only [infer, andThen_eq_done, State.unifyThen_eq_done, State.leaveThen_eq_done,
      leaving_eq_done, State.resolve_refresh] at h
    obtain ⟨v', st₂, t₁, hv, st₃, hl, st₄, hu, e₁, st₅, he, hl', rfl⟩ := h
    rw [List.length_map] at hl'
    have hw₅ := hw.of_leave hl'
    have hw₄ := (hw₅.of_infer he).of_isPrefix
      (st₄.trace_prefix_refresh.trans (State.trace_prefix_foldl_bind _ _))
    have hw₂ := (hw₄.of_unify hu).of_leave hl
    exact .letTuple (enters_of_enter st vars (hw₂.of_infer hv)) (infers_of_infer v _ hv hw₂) hl hu
      (infers_of_infer e _ he hw₅) hl'
  | .foreign k, st, e', st', t, h, hw => by
    rw [infer] at h
    exact absurd h failed_ne_done

theorem infersAll_of_inferAll (i : Nat) : (es : List Expr) → (st : State) → {es' : List Expr} →
    {st' : State} → {ts : List Ty} → inferAll i es st = done es' st' ts → NoWrap st'.trace →
    InfersAll es st es' st' ts
  | [], st, es', st', ts, h, hw => by
    rw [inferAll] at h
    obtain ⟨rfl, rfl, rfl⟩ := done_inj.1 h
    exact .nil
  | e :: es, st, es', st', ts, h, hw => by
    simp only [inferAll, andThen_eq_done, done_inj] at h
    obtain ⟨e₁, st₁, t, he, es₁, st₂, ts₁, hes, rfl, rfl, rfl⟩ := h
    exact .cons (infers_of_infer e st he (hw.of_inferAll hes))
      (infersAll_of_inferAll (i + 1) es st₁ hes hw)

end

end LetPoly
