import LetPoly.Proofs.Passes

/-!
# Inference captures no variables

Before a type is generalized, the environment is brought up to date with the substitution found so
far. A scheme passes over the equations for the ids it quantifies, but nothing keeps the right side
of another equation from mentioning such an id, which would then be captured. In a pass from a start
without clashes this does not happen: quantified ids are neither live nor bound by the substitution,
and an equation that changes the body of a scheme puts in nothing but what its free variables have
become.

## Main definitions

* `Scheme.Uses`: an equation that changes the body of a scheme.
* `Env.NoCapture`: no equation used mentions an id that the scheme quantifies.
* `State.Safe`: so far the environment has been brought up to date without capture.

## Main results

* `State.Regular.noCapture`: no capture in a regular state.
* `infer_safe`: inference stays safe, whether it ends well or not.
* `Context.noCapture_of_refreshed`: no capture in a pass from a start without clashes.
-/

namespace LetPoly

open Outcome

/-! ### Capture -/

/-- The equation `q` of the substitution `s` is used to change the body of the scheme: with `q` the
body is not what the equations before `q` have made of it. -/
def Scheme.Uses (σ : Scheme) (s : Subst) (q : Equation) : Prop :=
  ∃ before after, s = before ++ q :: after ∧
    (σ.apply (before ++ [q])).body ≠ (σ.apply before).body

/-- Bringing the environment up to date with the substitution `s` captures nothing: equations that
change the body of a scheme mention none of the ids that the scheme quantifies. -/
def Env.NoCapture (env : Env) (s : Subst) : Prop :=
  ∀ x ∈ env, ∀ q, x.scheme.Uses s q → q.type.Within fun v => ¬ v ∈ x.scheme.bound

theorem Scheme.body_apply_concat (σ : Scheme) (s : Subst) (q : Equation) :
    (σ.apply (s ++ [q])).body =
      if q.var ∈ σ.bound then (σ.apply s).body
      else (σ.apply s).body.replace q.var q.type := by
  rw [Scheme.apply_append]
  by_cases hq : q.var ∈ σ.bound <;> simp [Scheme.apply, VarSet.contains_eq_decide, hq]

/-- An equation that changes the body replaces a free variable. -/
theorem Scheme.mem_freeVars_of_ne {σ : Scheme} {s : Subst} {q : Equation}
    (h : (σ.apply (s ++ [q])).body ≠ (σ.apply s).body) : q.var ∈ (σ.apply s).freeVars := by
  rw [Scheme.body_apply_concat] at h
  split at h
  · exact absurd rfl h
  · rename_i hq
    refine Scheme.mem_freeVars.2 ⟨?_, hq⟩
    by_contra hno
    exact h (Ty.replace_eq_self hno)

theorem Ty.mem_vars_replace_of_mem {t u : Ty} {v w : Int} (hv : v ∈ t.vars) (hw : w ∈ u.vars) :
    w ∈ (t.replace v u).vars := by
  refine (Ty.mem_vars_subst t).2 ⟨v, hv, ?_⟩
  rwa [Ty.single, if_pos rfl]

/-- A variable that no equation binds stays. -/
theorem Ty.mem_vars_apply_of_mem {s : Subst} {t : Ty} {v : Int} (hv : v ∈ t.vars)
    (h : ∀ q ∈ s, q.var ≠ v) : v ∈ (t.apply s).vars := by
  rw [Ty.apply_eq_subst, Ty.mem_vars_subst]
  refine ⟨v, hv, ?_⟩
  rw [Subst.eval_of_forall_ne h, Ty.mem_vars_var]

/-- What an equation puts into the body of a scheme is live, and quantified ids are not. -/
theorem State.Regular.noCapture {st : State} (hr : st.Regular) : st.env.NoCapture st.subst := by
  rintro x hx q ⟨before, after, hs, hchange⟩ v hv hbound
  have hdom : ∀ r ∈ st.subst, ∀ w ∈ x.scheme.bound, r.var ≠ w :=
    fun r hmem w hw => (hr.bounds w ⟨x, hx, hw⟩).2.2 r hmem
  -- the id that is replaced stems from a free variable `u` of the scheme
  obtain ⟨-, u, hu, hqu⟩ := (Scheme.mem_freeVars_apply fun r hmem hw =>
    hdom r (hs ▸ List.mem_append_left _ hmem) r.var hw rfl).1 (Scheme.mem_freeVars_of_ne hchange)
  have hvu : v ∈ (st.subst.eval u).vars := by
    rw [hs, Subst.eval_append, Ty.apply_cons]
    refine Ty.mem_vars_apply_of_mem (Ty.mem_vars_replace_of_mem hqu hv) fun r hmem => ?_
    exact hdom r (hs ▸ List.mem_append_right _ (List.mem_cons_of_mem _ hmem)) v hbound
  exact (hr.bounds v ⟨x, hx, hbound⟩).2.1 ⟨u, Env.mem_freeVars.2 ⟨x, hx, hu⟩, hvu⟩

/-! ### Steps -/

namespace State

/-- Unless the supply has started over, the environment has always been brought up to date without
capture. -/
def Safe (st : State) : Prop :=
  NoWrap st.trace → ∀ env s, .refreshed env s ∈ st.trace → env.NoCapture s

/-- A step is safe if it does not bring the environment up to date. -/
theorem Safe.of_append {st st' : State} (h : st.Safe) (events : List Event)
    (htrace : st'.trace = st.trace ++ events) (hno : ∀ env s, .refreshed env s ∉ events) :
    st'.Safe := by
  intro hw env s hmem
  rw [htrace] at hw hmem
  rcases List.mem_append.1 hmem with hmem | hmem
  · exact h (hw.of_isPrefix (List.prefix_append _ _)) env s hmem
  · exact absurd hmem (hno env s)

theorem steady_safe : Steady Safe where
  freshVar h := h.of_append _ rfl (by simp)
  instantiate _ h := h.of_append _ rfl (by simp)
  unify {st} a b h := by
    refine h.of_append ((solve [⟨a.apply st.subst, b.apply st.subst⟩]).solved.map .bound) ?_
      (by simp)
    simp only [unify]
    split <;> rfl
  pushMono _ _ h := h
  leave h hl := h.of_append [] (by rw [trace_leave? hl, List.append_nil]) (by simp)
  bind _ h := h.of_append _ rfl (by simp)

theorem Safe.refresh {st : State} (h : st.Safe) (hr : NoWrap st.trace → st.Regular) :
    st.refresh.Safe := by
  intro hw env s hmem
  have hw := hw.of_isPrefix st.trace_prefix_refresh
  rcases List.mem_append.1 hmem with hmem | hmem
  · exact h hw env s hmem
  · obtain ⟨rfl, rfl⟩ := Event.refreshed.inj (List.mem_singleton.1 hmem)
    exact (hr hw).noCapture

end State

/-! ### Whole trees -/

/-- Unless the supply has started over, the slots of the bindings have not been touched. -/
def Prepared (bs : List Binding) (st : State) : Prop :=
  NoWrap st.trace → Ready bs st

namespace Prepared

variable {bs bs' cs : List Binding} {b b' : Binding} {e e' : Expr} {st st₁ st₂ st₃ st₄ : State}
  {t : Ty}

theorem left (h : Prepared (bs ++ cs) st) : Prepared bs st :=
  fun hw => (h hw).left

theorem framed (h : Prepared e.bindings st) (he : infer e st = done e' st₁ t)
    (hw : NoWrap st₁.trace) : Framed e.bindings st st₁ t :=
  Infers.framed e (infers_of_infer e st he hw) (h (hw.of_infer he))

/-- Inference in one part of a tree leaves the slots of the parts to come as they are. -/
theorem after_infer (h : Prepared (e.bindings ++ cs) st) (he : infer e st = done e' st₁ t) :
    Prepared cs st₁ :=
  fun hw => (h (hw.of_infer he)).right (h.left.framed he hw).steps

/-- The same for a part whose type has to be a constant. -/
theorem after_test (h : Prepared (e.bindings ++ cs) st) (he : infer e st = done e' st₁ t)
    {n : String} (hu : st₁.unify (.const n) t = (st₂, none)) : Prepared cs st₂ := by
  intro hw
  have hw₁ := hw.of_unify hu
  have hready := h (hw₁.of_infer he)
  have hf := h.left.framed he hw₁
  exact hready.right (Framed.unify hready.left hf.steps (.const n) hf.confines hu (.const n)).steps

theorem declare (h : Prepared ([b] ++ cs) st) : Prepared cs (st.declare b).2 := by
  intro hw
  have hready := h (hw.of_isPrefix (st.trace_prefix_declare b))
  exact hready.right ((declares_of_declare st b hw).framed hready.left).steps

theorem entered (h : Prepared (bs ++ cs) st) (henter : st.enter bs = (bs', st₁))
    (hw : NoWrap st₁.trace) : NoWrap st.trace ∧ Entered bs cs st bs' st₁ := by
  obtain ⟨rfl, rfl⟩ := Prod.mk.inj henter
  have hw₀ := hw.of_isPrefix (st.trace_prefix_enter bs)
  exact ⟨hw₀, (enters_of_enter st bs hw).entered (h hw₀)⟩

/-- The environment can be brought up to date before the second part of a binding expression, and
the types found for the names `bs'` can be generalized. -/
theorem rest (h : Prepared (bs ++ cs) st)
    (hfirst : NoWrap st₁.trace → NoWrap st.trace ∧ st.Extends (Zone bs st) st₁ ∧
      ∀ b ∈ bs', st₁.Confines (Zone bs st) b.slot) (hsafe : st₁.Safe) :
    Prepared cs ((bs'.map st₁.resolve).foldl State.bind st₁.refresh) ∧
      ((bs'.map st₁.resolve).foldl State.bind st₁.refresh).Safe := by
  constructor
  · intro hw
    obtain ⟨hw₀, hsteps, hslots⟩ := hfirst (hw.of_isPrefix
      (st₁.trace_prefix_refresh.trans (State.trace_prefix_foldl_bind _ _)))
    exact ((h hw₀).rest hsteps hslots).ready
  · exact State.steady_safe.foldl_bind _ (hsafe.refresh fun hw => (hfirst hw).2.1.regular)

theorem rest_letIn (h : Prepared ([b] ++ e.bindings ++ cs) st)
    (he : infer e (st.declare b).2 = done e' st₁ t)
    (hu : st₁.unify (st.declare b).1.slot t = (st₂, none)) (hsafe : st₂.Safe) :
    Prepared cs (([(st.declare b).1].map st₂.resolve).foldl State.bind st₂.refresh) ∧
      (([(st.declare b).1].map st₂.resolve).foldl State.bind st₂.refresh).Safe := by
  refine h.rest (fun hw => ?_) hsafe
  have hw₁ := hw.of_unify hu
  have hdecl := declares_of_declare st b (hw₁.of_infer he)
  have hw₀ := (hw₁.of_infer he).of_isPrefix (st.trace_prefix_declare b)
  have hf := hdecl.framed_unify (h hw₀).left (h.left.declare.framed he hw₁) hu
  exact ⟨hw₀, hf.steps, hf.slots⟩

theorem rest_letRec (h : Prepared (b :: bs ++ e.bindings ++ cs) st)
    (henter : st.enter (b :: bs) = (b' :: bs', st₁)) (he : infer e st₁ = done e' st₂ t)
    (hl : st₂.leave? (b' :: bs').length = some st₃)
    (hu : st₃.unify b'.slot (.arrow (bs'.map (·.slot)) t) = (st₄, none)) (hsafe : st₄.Safe) :
    Prepared cs (([b'].map st₄.resolve).foldl State.bind st₄.refresh) ∧
      (([b'].map st₄.resolve).foldl State.bind st₄.refresh).Safe := by
  refine h.rest (fun hw => ?_) hsafe
  have hw₂ := (hw.of_unify hu).of_leave hl
  obtain ⟨hw₀, hin⟩ := h.left.entered henter (hw₂.of_infer he)
  have hf := hin.framed_arrow (h hw₀).left
    (Infers.framed e (infers_of_infer e st₁ he hw₂) hin.ready) hl hu
  exact ⟨hw₀, hf.steps, hf.slots⟩

theorem rest_letTuple (h : Prepared (bs ++ e.bindings ++ cs) st)
    (henter : st.enter bs = (bs', st₁)) (he : infer e st₁ = done e' st₂ t)
    (hl : st₂.leave? bs'.length = some st₃)
    (hu : st₃.unify t (.tuple (bs'.map (·.slot))) = (st₄, none)) (hsafe : st₄.Safe) :
    Prepared cs ((bs'.map st₄.resolve).foldl State.bind st₄.refresh) ∧
      ((bs'.map st₄.resolve).foldl State.bind st₄.refresh).Safe := by
  refine h.rest (fun hw => ?_) hsafe
  have hw₂ := (hw.of_unify hu).of_leave hl
  obtain ⟨hw₀, hin⟩ := h.left.entered henter (hw₂.of_infer he)
  have hf := hin.framed_tuple (h hw₀).left
    (Infers.framed e (infers_of_infer e st₁ he hw₂) hin.ready) hl hu
  exact ⟨hw₀, hf.steps, hf.slots_of_tuple⟩

end Prepared

section Runs

open State (steady_safe)

mutual

/-- Inference stays safe, whether it ends well or not. -/
theorem infer_safe : (e : Expr) → {st : State} → Prepared e.bindings st → st.Safe →
    (infer e st).Leaves State.Safe
  | .absent, _, _, h => h
  | .unit, _, _, h => h
  | .bool _, _, _, h => h
  | .int _, _, _, h => h
  | .var x, st, _, h => by
    rw [infer]
    split
    · exact h
    · exact steady_safe.instantiate _ h
  | .not e, _, hp, h =>
    (infer_safe e hp h).andThen fun _ _ t _ h => leaves_constrain (steady_safe.unify .bool t h)
  | .neg e, _, hp, h =>
    (infer_safe e hp h).andThen fun _ _ t _ h => leaves_constrain (steady_safe.unify .int t h)
  | .arith _ l r, st, hp, h =>
    have hp : Prepared (l.bindings ++ r.bindings) st := hp
    (infer_safe l hp.left h).andThen fun _ _ t₁ hl h =>
      (infer_safe r (hp.after_infer hl) h).andThen fun _ _ t₂ _ h =>
        leaves_unifyThen (steady_safe.unify t₁ t₂ h) fun _ _ h =>
          leaves_constrain (steady_safe.unify t₁ .int h)
  | .eq l r, st, hp, h =>
    have hp : Prepared (l.bindings ++ r.bindings) st := hp
    (infer_safe l hp.left h).andThen fun _ _ t₁ hl h =>
      (infer_safe r (hp.after_infer hl) h).andThen fun _ _ t₂ _ h =>
        leaves_constrain (steady_safe.unify t₁ t₂ h)
  | .le l r, st, hp, h =>
    have hp : Prepared (l.bindings ++ r.bindings) st := hp
    (infer_safe l hp.left h).andThen fun _ _ t₁ hl h =>
      leaves_unifyThen (steady_safe.unify .int t₁ h) fun _ hu h =>
        (infer_safe r (hp.after_test hl hu) h).andThen fun _ _ t₂ _ h =>
          leaves_constrain (steady_safe.unify .int t₂ h)
  | .ite c e₁ e₂, st, hp, h => by
    have hp : Prepared (c.bindings ++ (e₁.bindings ++ e₂.bindings)) st :=
      List.append_assoc .. ▸ hp
    exact (infer_safe c hp.left h).andThen fun _ _ t₁ hc h =>
      leaves_unifyThen (steady_safe.unify .bool t₁ h) fun _ hu h =>
        have hp := hp.after_test hc hu
        (infer_safe e₁ hp.left h).andThen fun _ _ t₂ h₁ h =>
          (infer_safe e₂ (hp.after_infer h₁) h).andThen fun _ _ t₃ _ h =>
            leaves_unifyThen (steady_safe.unify t₂ t₃ h) fun _ _ h => leaves_done h
  | .letIn b v e, st, hp, h => by
    have hp : Prepared ([b] ++ v.bindings ++ e.bindings) st := hp
    rw [infer]
    refine (infer_safe v hp.left.declare (steady_safe.declare b h)).andThen fun v' st₂ t hv h =>
      leaves_unifyThen (steady_safe.unify _ t h) fun st₃ hu h => ?_
    obtain ⟨hprest, hrest⟩ := hp.rest_letIn hv hu h
    exact (infer_safe e hprest hrest).leaving fun _ _ => steady_safe.leave
  | .letRec fn args body rest, st, hp, h => by
    have hp : Prepared (fn :: args ++ body.bindings ++ rest.bindings) st := hp
    rw [infer]
    refine (infer_safe body (fun hw => (hp.left.entered rfl hw).2.ready)
      (steady_safe.enter (fn :: args) h)).andThen fun body' st₃ ret hbody h =>
        leaves_leaveThen h fun st₄ hl =>
          leaves_unifyThen (steady_safe.unify _ _ (steady_safe.leave h hl)) fun st₅ hu h => ?_
    obtain ⟨hprest, hrest⟩ := hp.rest_letRec rfl hbody hl hu h
    exact (infer_safe rest hprest hrest).leaving fun _ _ => steady_safe.leave
  | .app fn args _, st, hp, h =>
    have hp : Prepared (fn.bindings ++ Expr.bindingsAll args) st := hp
    (infer_safe fn hp.left h).andThen fun _ _ t hfn h =>
      (inferAll_safe 1 args (hp.after_infer hfn) h).andThen fun _ _ ts _ h =>
        leaves_unifyThen (steady_safe.unify (.arrow ts _) t (steady_safe.freshVar h)) fun _ _ h =>
          leaves_done h
  | .tuple es, _, hp, h => (inferAll_safe 0 es hp h).andThen fun _ _ _ _ h => leaves_done h
  | .letTuple vars v e, st, hp, h => by
    have hp : Prepared (vars ++ v.bindings ++ e.bindings) st := hp
    rw [infer]
    refine (infer_safe v (fun hw => (hp.left.entered rfl hw).2.ready)
      (steady_safe.enter vars h)).andThen fun v' st₂ t hv h =>
        leaves_leaveThen h fun st₃ hl =>
          leaves_unifyThen (steady_safe.unify _ _ (steady_safe.leave h hl)) fun st₄ hu h => ?_
    obtain ⟨hprest, hrest⟩ := hp.rest_letTuple rfl hv hl hu h
    exact (infer_safe e hprest hrest).leaving fun _ _ => steady_safe.leave
  | .foreign _, _, _, h => h

theorem inferAll_safe (i : Nat) : (es : List Expr) → {st : State} →
    Prepared (Expr.bindingsAll es) st → st.Safe → (inferAll i es st).Leaves State.Safe
  | [], _, _, h => h
  | e :: es, st, hp, h =>
    have hp : Prepared (e.bindings ++ Expr.bindingsAll es) st := hp
    (infer_safe e hp.left h).andThen fun _ _ _ he h =>
      (inferAll_safe (i + 1) es (hp.after_infer he) h).andThen fun _ _ _ _ h => leaves_done h

end

end Runs

/-! ### Passes -/

namespace Context

/-- **No variable is captured in a pass.** If the variables that the pass finds do not clash and its
supply does not start over, then whenever the environment is brought up to date with the
substitution, every equation that changes the body of a scheme mentions none of the ids that the
scheme quantifies. This holds for schemes that were there before the pass and for those it has found
itself, also in a pass that fails later. -/
theorem noCapture_of_refreshed (ctx : Context) (mode : Mode) (env : Env) (root : Expr) (g : Supply)
    (hg : ctx.passSupply env root = .ok g) (hstart : WellFormed env root g)
    (hw : NoWrap (ctx.pass mode env root).trace) (Γ : Env) (S : Subst)
    (hmem : .refreshed Γ S ∈ (ctx.pass mode env root).trace) : Γ.NoCapture S := by
  rcases trace_pass hg mode with htrace | htrace
  · rw [htrace] at hmem
    exact absurd hmem List.not_mem_nil
  · rw [htrace] at hw hmem
    have hsafe : (State.mk env [] g []).Safe := fun _ _ _ h => absurd h List.not_mem_nil
    exact infer_safe root (fun _ => hstart.ready) hsafe hw Γ S hmem

/-- The identity in a pair with a function of an unknown type, which is applied afterwards. -/
def partner : Expr :=
  .letRec ⟨"id", .absent⟩ [⟨"x", .var 2⟩] (.var "x")
    (.letTuple [⟨"p", .absent⟩, ⟨"f", .absent⟩] (.app (.var "pair") [.var "id"] .absent)
      (.letIn ⟨"r", .absent⟩ (.app (.var "f") [.int 1] .absent) (.var "r")))

/-- The environment and the substitution before the type of `r` is generalized: equations mention
ids that the types of `id` and `p` quantify, and the equation for `5` changes the type of `pair`. -/
theorem noCapture_of_refreshed_partner :
    ∃ Γ S, .refreshed Γ S ∈ ((fresh none).pass .inPlace pairEnv partner).trace ∧
      (∃ q ∈ S, ∃ v ∈ q.type.vars, Γ.Bounds v) ∧
      (∃ x ∈ Γ, ∃ q, x.scheme.Uses S q ∧ x.scheme.bound ≠ ∅ ∧ q.type.vars ≠ []) ∧
      Γ.NoCapture S := by
  let Γ : Env := [⟨"f", .mono (.var 5)⟩, ⟨"p", ⟨.ofList [7], .arrow [.var 7] (.var 7)⟩⟩,
    ⟨"id", ⟨.ofList [2], .arrow [.var 2] (.var 2)⟩⟩,
    ⟨"pair", ⟨.ofList [0], .arrow [.var 0] (.tuple [.var 0, .var 5])⟩⟩]
  let S : Subst := [⟨3, .arrow [.var 2] (.var 2)⟩, ⟨6, .arrow [.var 7] (.var 7)⟩,
    ⟨8, .tuple [.arrow [.var 7] (.var 7), .var 1]⟩, ⟨1, .var 5⟩, ⟨4, .arrow [.var 7] (.var 7)⟩,
    ⟨5, .arrow [.int] (.var 10)⟩, ⟨9, .var 10⟩]
  have hmem : .refreshed Γ S ∈ ((fresh none).pass .inPlace pairEnv partner).trace :=
    List.mem_of_getElem? (i := 20) (by cbv)
  refine ⟨Γ, S, hmem, ?_, ?_, ?_⟩
  · exact ⟨⟨3, .arrow [.var 2] (.var 2)⟩, by decide, 2, by decide,
      ⟨"id", ⟨.ofList [2], .arrow [.var 2] (.var 2)⟩⟩, by decide, by decide⟩
  · exact ⟨⟨"pair", ⟨.ofList [0], .arrow [.var 0] (.tuple [.var 0, .var 5])⟩⟩, by decide,
      ⟨5, .arrow [.int] (.var 10)⟩, ⟨S.take 5, S.drop 6, by decide⟩, by decide, by decide⟩
  · exact noCapture_of_refreshed (fresh none) .inPlace pairEnv partner ⟨3⟩ (by decide) (by decide)
      (noWrap_iff.2 (by cbv)) Γ S hmem

end Context

end LetPoly
