import LetPoly.Env
import LetPoly.Expr.Slots
import LetPoly.Proofs.Substitution

/-!
# Declarative typing

The typing rules of the language, with no substitution, no fresh variables and no order of events: a
type may be derived for an expression in an environment. A variable has every instance of the scheme
of its most recent entry. The type of a plain binding is generalized for the body; a recursive
function and its arguments keep their types in the function's own body, and the function is
generalized for the rest; the names of a tuple keep their types in the value and are generalized,
one by one, for the body. Generalizing quantifies the variables that are not free in the
environment.

A derivation also looks at the slots of the tree, by a rule that is a parameter of the relation.

## Main definitions

* `Scheme.inst`, `Scheme.Instance`: the types that a scheme stands for.
* `Env.Bounds`, `Env.Live`: the ids that an environment quantifies, and those that are free in it
  under a substitution.
* `Env.extend`: an environment with entries for several names.
* `SlotRule`: what a derivation asks of a slot; `SlotRule.filled` and `SlotRule.declared`.
* `HasType`, `HasTypeAll`: a type can be derived for an expression, for each of a list.

## Main results

* `Env.mem_freeVars_apply`: the free variables after a substitution.
* `Env.generalize_apply`: generalization commutes with a substitution that avoids the quantified
  ids.
-/

namespace LetPoly

/-! ### Schemes -/

namespace Scheme

/-- The body with `ρ` for the quantified variables and `θ` for the others. -/
def inst (σ : Scheme) (ρ θ : Int → Ty) : Ty :=
  σ.body.subst fun v => if v ∈ σ.bound then ρ v else θ v

/-- The type `t` arises from the scheme by complete types for the quantified variables. -/
def Instance (σ : Scheme) (t : Ty) : Prop :=
  ∃ ρ : Int → Ty, (∀ v, (ρ v).Complete) ∧ t = σ.inst ρ .var

theorem subst_inst (σ : Scheme) (ρ θ τ : Int → Ty) :
    (σ.inst ρ θ).subst τ = σ.inst (fun v => (ρ v).subst τ) fun v => (θ v).subst τ := by
  rw [inst, inst, Ty.subst_subst]
  refine Ty.subst_congr fun v _ => ?_
  split <;> rfl

@[simp] theorem bound_mono (t : Ty) : (mono t).bound = ∅ := rfl

@[simp] theorem body_mono (t : Ty) : (mono t).body = t := rfl

@[simp] theorem bound_apply (σ : Scheme) (s : Subst) : (σ.apply s).bound = σ.bound := rfl

theorem mem_freeVars {σ : Scheme} {v : Int} :
    v ∈ σ.freeVars ↔ v ∈ σ.body.vars ∧ ¬ v ∈ σ.bound := by
  rw [freeVars, VarSet.mem_diff, Ty.mem_freeVars]

@[simp] theorem mem_freeVars_mono {t : Ty} {v : Int} : v ∈ (mono t).freeVars ↔ v ∈ t.vars := by
  rw [mem_freeVars, body_mono, bound_mono]
  simp

/-- A substitution that binds no quantified variable acts on the whole body. -/
theorem apply_eq {σ : Scheme} {s : Subst} (h : ∀ q ∈ s, ¬ q.var ∈ σ.bound) :
    σ.apply s = ⟨σ.bound, σ.body.apply s⟩ := by
  have hfilter : s.filter (fun q => !σ.bound.contains q.var) = s := by
    rw [List.filter_eq_self]
    intro q hq
    simp only [VarSet.contains_eq_decide, h q hq, decide_false, Bool.not_false]
  rw [apply, hfilter]

@[simp] theorem apply_mono (t : Ty) (s : Subst) : (mono t).apply s = mono (t.apply s) :=
  apply_eq fun q _ => VarSet.not_mem_empty q.var

/-- Two substitutions in a row are one. -/
theorem apply_append (σ : Scheme) (s d : Subst) : σ.apply (s ++ d) = (σ.apply s).apply d := by
  simp only [apply, List.filter_append, Ty.apply_append]

/-- What is free after a substitution comes from what was free before. -/
theorem mem_freeVars_apply {σ : Scheme} {s : Subst} {v : Int} (h : ∀ q ∈ s, ¬ q.var ∈ σ.bound) :
    v ∈ (σ.apply s).freeVars ↔ ¬ v ∈ σ.bound ∧ ∃ u, u ∈ σ.freeVars ∧ v ∈ (s.eval u).vars := by
  rw [apply_eq h, mem_freeVars, Ty.apply_eq_subst, Ty.mem_vars_subst]
  constructor
  · rintro ⟨⟨u, hu, hvu⟩, hv⟩
    refine ⟨hv, u, mem_freeVars.2 ⟨hu, fun hbound => ?_⟩, hvu⟩
    rw [Subst.eval_of_forall_ne fun q hq e => h q hq (e ▸ hbound), Ty.mem_vars_var] at hvu
    exact hv (hvu ▸ hbound)
  · rintro ⟨hv, u, hu, hvu⟩
    exact ⟨⟨u, (mem_freeVars.1 hu).1, hvu⟩, hv⟩

end Scheme

/-! ### Environments -/

namespace Env

/-- Some entry quantifies the id. -/
def Bounds (env : Env) (v : Int) : Prop :=
  ∃ x ∈ env, v ∈ x.scheme.bound

/-- The id is free in the environment once the substitution is taken into account. -/
def Live (env : Env) (s : Subst) (v : Int) : Prop :=
  ∃ u, u ∈ env.freeVars ∧ v ∈ (s.eval u).vars

/-- An environment with an entry for each of several names, the last one on top. -/
def extend (gen : Ty → Scheme) : Env → List String → List Ty → Env
  | env, x :: xs, t :: ts => extend gen (env.push x (gen t)) xs ts
  | env, _, _ => env

@[simp] theorem bounds_push {env : Env} {x : String} {σ : Scheme} {v : Int} :
    (env.push x σ).Bounds v ↔ v ∈ σ.bound ∨ env.Bounds v := by
  simp [Bounds, push]

@[simp] theorem bounds_apply {env : Env} {s : Subst} {v : Int} :
    (env.apply s).Bounds v ↔ env.Bounds v := by
  simp [Bounds, apply]

theorem mem_freeVars_push {env : Env} {x : String} {σ : Scheme} {v : Int} :
    v ∈ (env.push x σ).freeVars ↔ v ∈ σ.freeVars ∨ v ∈ env.freeVars := by
  simp [mem_freeVars, push]

@[simp] theorem apply_push (env : Env) (x : String) (σ : Scheme) (s : Subst) :
    (env.push x σ).apply s = (env.apply s).push x (σ.apply s) := rfl

theorem apply_append (env : Env) (s d : Subst) : env.apply (s ++ d) = (env.apply s).apply d := by
  simp only [apply, List.map_map, Scheme.apply_append]
  rfl

theorem lookup_apply (env : Env) (s : Subst) (x : String) :
    (env.apply s).lookup x = (env.lookup x).map (·.apply s) := by
  simp only [lookup, apply, List.find?_map, Option.map_map]
  rfl

/-- The scheme found for a name belongs to an entry. -/
theorem mem_of_lookup {env : Env} {x : String} {σ : Scheme} (h : env.lookup x = some σ) :
    ⟨x, σ⟩ ∈ env := by
  obtain ⟨⟨y, τ⟩, hfind, rfl⟩ := Option.map_eq_some_iff.1 h
  have hname : y = x := by simpa using List.find?_some hfind
  exact hname ▸ List.mem_of_find?_eq_some hfind

theorem apply_extend {gen gen' : Ty → Scheme} {s : Subst} (env : Env) (xs : List String)
    (ts : List Ty) (h : ∀ t ∈ ts, (gen t).apply s = gen' (t.apply s)) :
    (env.extend gen xs ts).apply s = (env.apply s).extend gen' xs (ts.map (·.apply s)) := by
  induction xs generalizing env ts with
  | nil => rfl
  | cons x xs ih =>
    obtain _ | ⟨t, ts⟩ := ts
    · rfl
    · rw [List.forall_mem_cons] at h
      rw [List.map_cons, extend, extend, ih _ ts h.2, apply_push, h.1]

theorem extend_eq_append (gen : Ty → Scheme) (env : Env) {xs : List String} {ts : List Ty}
    (h : xs.length = ts.length) :
    ∃ ys : Env, ys.length = xs.length ∧ env.extend gen xs ts = ys ++ env := by
  induction xs generalizing env ts with
  | nil => exact ⟨[], rfl, rfl⟩
  | cons x xs ih =>
    obtain _ | ⟨t, ts⟩ := ts
    · simp at h
    · obtain ⟨ys, hlen, heq⟩ := ih (env.push x (gen t)) (Nat.succ.inj h)
      refine ⟨ys ++ [⟨x, gen t⟩], by simp [hlen], ?_⟩
      rw [extend, heq, push, List.append_assoc, List.singleton_append]

/-- The free variables after a substitution are the live ones. -/
theorem mem_freeVars_apply {env : Env} {s : Subst} {v : Int} (h : ∀ q ∈ s, ¬ env.Bounds q.var)
    (hlive : ∀ v, env.Live s v → ¬ env.Bounds v) :
    v ∈ (env.apply s).freeVars ↔ env.Live s v := by
  have hx : ∀ x ∈ env, ∀ q ∈ s, ¬ q.var ∈ x.scheme.bound := fun x hx q hq hb => h q hq ⟨x, hx, hb⟩
  rw [mem_freeVars]
  constructor
  · rintro ⟨x', hx', hv⟩
    obtain ⟨x, hmem, rfl⟩ := List.mem_map.1 hx'
    obtain ⟨-, u, hu, hvu⟩ := (Scheme.mem_freeVars_apply (hx x hmem)).1 hv
    exact ⟨u, mem_freeVars.2 ⟨x, hmem, hu⟩, hvu⟩
  · rintro ⟨u, hu, hvu⟩
    obtain ⟨x, hmem, hux⟩ := mem_freeVars.1 hu
    have hv : ¬ v ∈ x.scheme.bound := fun hb => hlive v ⟨u, hu, hvu⟩ ⟨x, hmem, hb⟩
    exact ⟨_, List.mem_map_of_mem hmem, (Scheme.mem_freeVars_apply (hx x hmem)).2 ⟨hv, u, hux, hvu⟩⟩

/-! ### Generalization -/

theorem mem_bound_generalize {env : Env} {t : Ty} {v : Int} :
    v ∈ (env.generalize t).bound ↔ v ∈ t.vars ∧ ¬ v ∈ env.freeVars := by
  rw [generalize, VarSet.mem_diff, Ty.mem_freeVars]

theorem mem_freeVars_generalize {env : Env} {t : Ty} {v : Int} :
    v ∈ (env.generalize t).freeVars ↔ v ∈ t.vars ∧ v ∈ env.freeVars := by
  rw [Scheme.mem_freeVars, mem_bound_generalize]
  change v ∈ t.vars ∧ _ ↔ _
  tauto

/-- Only the free variables of the environment count for generalization. -/
theorem generalize_congr {env env' : Env} (h : ∀ v, v ∈ env.freeVars ↔ v ∈ env'.freeVars) :
    env.generalize = env'.generalize := by
  funext t
  have hbound : (env.generalize t).bound = (env'.generalize t).bound :=
    VarSet.ext fun v => by rw [mem_bound_generalize, mem_bound_generalize, h v]
  rw [generalize, generalize] at *
  exact congrArg (Scheme.mk · t) hbound

/-- A generalized entry makes no variable free that was not free before. -/
theorem mem_freeVars_push_generalize {env : Env} {x : String} {t : Ty} {v : Int} :
    v ∈ (env.push x (env.generalize t)).freeVars ↔ v ∈ env.freeVars := by
  rw [mem_freeVars_push, mem_freeVars_generalize]
  tauto

/-- Generalization commutes with a substitution that does not mention the quantified ids. -/
theorem generalize_apply {env : Env} {t : Ty} {s : Subst} (h : ∀ q ∈ s, ¬ env.Bounds q.var)
    (hlive : ∀ v, env.Live s v → ¬ env.Bounds v)
    (ht : s.Within fun v => ¬ v ∈ (env.generalize t).bound) :
    (env.generalize t).apply s = (env.apply s).generalize (t.apply s) := by
  rw [Scheme.apply_eq fun q hq => (ht q hq).1]
  refine congrArg (Scheme.mk · (t.apply s)) (VarSet.ext fun v => ?_)
  have hfix : ∀ u ∈ (env.generalize t).bound.ids, s.eval u = .var u := fun u hu =>
    Subst.eval_of_forall_ne fun q hq e => (ht q hq).1 (e ▸ hu)
  change v ∈ (env.generalize t).bound ↔ v ∈ ((env.apply s).generalize (t.apply s)).bound
  rw [@mem_bound_generalize (env.apply s), mem_freeVars_apply h hlive, Ty.apply_eq_subst,
    Ty.mem_vars_subst]
  constructor
  · intro hv
    refine ⟨⟨v, (mem_bound_generalize.1 hv).1, ?_⟩, ?_⟩
    · rw [hfix v hv, Ty.mem_vars_var]
    · -- a free variable of the environment does not turn into a quantified one
      rintro ⟨u, hu, hvu⟩
      rcases Ty.mem_vars_apply hvu with huv | ⟨q, hq, hvq⟩
      · rw [Ty.mem_vars_var.1 huv] at hv
        exact (mem_bound_generalize.1 hv).2 hu
      · exact (ht q hq).2 v hvq hv
  · rintro ⟨⟨u, hu, hvu⟩, hv⟩
    by_cases hfree : u ∈ env.freeVars
    · exact absurd ⟨u, hfree, hvu⟩ hv
    · have hbound : u ∈ (env.generalize t).bound := mem_bound_generalize.2 ⟨hu, hfree⟩
      rw [hfix u hbound, Ty.mem_vars_var] at hvu
      exact hvu ▸ hbound

end Env

/-! ### Slots -/

/-- What a derivation asks of a slot of some kind, given the type it finds for what the slot belongs
to. -/
abbrev SlotRule := SlotKind → Ty → Ty → Prop

namespace SlotRule

/-- Every slot holds the type. -/
def filled : SlotRule := fun _ slot t => slot = t

/-- The slot of a binding holds the type if a type without variables was declared in it. -/
def declared : SlotRule := fun kind slot t =>
  kind ≠ .application → slot ≠ .absent → slot.vars = [] → slot = t

end SlotRule

/-! ### The typing rules -/

mutual

/-- The type `t` can be derived for the expression `e` in the environment `Γ`. -/
inductive HasType (rule : SlotRule) : Env → Expr → Ty → Prop where
  | unit {Γ : Env} : HasType rule Γ .unit .unit
  | bool {Γ : Env} {b : Bool} : HasType rule Γ (.bool b) .bool
  | int {Γ : Env} {n : Int} : HasType rule Γ (.int n) .int
  | var {Γ : Env} {x : String} {σ : Scheme} {t : Ty} (hx : Γ.lookup x = some σ)
    (ht : σ.Instance t) : HasType rule Γ (.var x) t
  | not {Γ : Env} {e : Expr} (he : HasType rule Γ e .bool) : HasType rule Γ (.not e) .bool
  | neg {Γ : Env} {e : Expr} (he : HasType rule Γ e .int) : HasType rule Γ (.neg e) .int
  | arith {Γ : Env} {op : ArithOp} {l r : Expr} (hl : HasType rule Γ l .int)
    (hr : HasType rule Γ r .int) : HasType rule Γ (.arith op l r) .int
  | eq {Γ : Env} {l r : Expr} {t : Ty} (hl : HasType rule Γ l t) (hr : HasType rule Γ r t) :
    HasType rule Γ (.eq l r) .bool
  | le {Γ : Env} {l r : Expr} (hl : HasType rule Γ l .int) (hr : HasType rule Γ r .int) :
    HasType rule Γ (.le l r) .bool
  | ite {Γ : Env} {c e₁ e₂ : Expr} {t : Ty} (hc : HasType rule Γ c .bool)
    (h₁ : HasType rule Γ e₁ t) (h₂ : HasType rule Γ e₂ t) : HasType rule Γ (.ite c e₁ e₂) t
  | letIn {Γ : Env} {b : Binding} {v e : Expr} {τ t : Ty} (hv : HasType rule Γ v τ)
    (hb : rule .letVar b.slot τ) (he : HasType rule (Γ.push b.name (Γ.generalize τ)) e t) :
    HasType rule Γ (.letIn b v e) t
  | letRec {Γ : Env} {fn : Binding} {args : List Binding} {body rest : Expr} {ts : List Ty}
    {τ t : Ty} (hts : ∀ s ∈ ts, s.Complete) (hfn : rule .recFunc fn.slot (.arrow ts τ))
    (hargs : List.Forall₂ (fun b s => rule .recArg b.slot s) args ts)
    (hbody : HasType rule
      ((Γ.pushMono fn.name (.arrow ts τ)).extend .mono (args.map (·.name)) ts) body τ)
    (hrest : HasType rule (Γ.push fn.name (Γ.generalize (.arrow ts τ))) rest t) :
    HasType rule Γ (.letRec fn args body rest) t
  | app {Γ : Env} {fn : Expr} {args : List Expr} {slot : Ty} {ts : List Ty} {t : Ty}
    (hfn : HasType rule Γ fn (.arrow ts t)) (hargs : HasTypeAll rule Γ args ts)
    (hs : rule .application slot t) : HasType rule Γ (.app fn args slot) t
  | tuple {Γ : Env} {es : List Expr} {ts : List Ty} (h : HasTypeAll rule Γ es ts) :
    HasType rule Γ (.tuple es) (.tuple ts)
  | letTuple {Γ : Env} {vars : List Binding} {v e : Expr} {ts : List Ty} {t : Ty}
    (hts : ∀ s ∈ ts, s.Complete)
    (hvars : List.Forall₂ (fun b s => rule .tupleVar b.slot s) vars ts)
    (hv : HasType rule (Γ.extend .mono (vars.map (·.name)) ts) v (.tuple ts))
    (he : HasType rule (Γ.extend Γ.generalize (vars.map (·.name)) ts) e t) :
    HasType rule Γ (.letTuple vars v e) t

/-- The types `ts` can be derived for the expressions `es`, one each. -/
inductive HasTypeAll (rule : SlotRule) : Env → List Expr → List Ty → Prop where
  | nil {Γ : Env} : HasTypeAll rule Γ [] []
  | cons {Γ : Env} {e : Expr} {es : List Expr} {t : Ty} {ts : List Ty} (he : HasType rule Γ e t)
    (hes : HasTypeAll rule Γ es ts) : HasTypeAll rule Γ (e :: es) (t :: ts)

end

end LetPoly
