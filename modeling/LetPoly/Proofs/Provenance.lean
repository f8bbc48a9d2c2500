import LetPoly.Proofs.Drawing
import LetPoly.Proofs.Trees

/-!
# Where the ids of a pass come from

Inference never makes up an id, and it never shows one that is quantified: when a scheme is
instantiated its quantified ids are replaced, and all other types are put together from those at
hand. So the ids that a pass leaves behind, in the type it finds, in the slots of the tree, in its
substitution or in the two types of its error, stood in a slot before the pass, are free in the
environment, or were drawn from the supply in the course of the pass.

Nothing is asked of the ids at the start. Quantified ids may be those of slots or of the supply, so
that types mean something else than they should; but even then no id comes from nowhere.

## Main definitions

* `State.Known`: an id that was there from the start or has been drawn since.
* `State.Stems`: the environment and the substitution of a state mention known ids only.
* `Outcome.Stems`: the same for what a step gives back, whether it ends well or not.
* `Pass.ids`: the ids that a pass leaves behind.

## Main results

* `Scheme.mem_vars_refresh`: the ids of an instance of a scheme.
* `within_of_solve`: the types in the failure of unification.
* `infer_stems`: inference on a whole tree.
* `Context.ids_of_pass`: where the ids of a pass come from.
-/

namespace LetPoly

open Outcome

/-! ### Instances and failures -/

/-- An id in an instance of a scheme is not quantified, or it has been drawn for the instance. -/
theorem Scheme.mem_vars_refresh {vs : List Int} {t : Ty} {g : Supply} {v : Int}
    (h : v ∈ (refresh vs t g).1.vars) :
    (v ∈ t.vars ∧ v ∉ vs) ∨ v ∈ (g.freshList vs.length).1 := by
  induction vs generalizing t g with
  | nil => exact .inl ⟨h, List.not_mem_nil⟩
  | cons w vs ih =>
    rcases ih h with ⟨hv, hvs⟩ | hdrawn
    · rcases Ty.mem_vars_replace hv with ⟨hv, hne⟩ | hnew
      · exact .inl ⟨hv, List.not_mem_cons_of_ne_of_not_mem hne hvs⟩
      · rw [Ty.mem_vars_var] at hnew
        exact .inr (hnew ▸ List.mem_cons_self)
    · exact .inr (List.mem_cons_of_mem _ hdrawn)

theorem Ty.Within.of_arrow {P : Int → Prop} {args : List Ty} {ret : Ty}
    (h : (Ty.arrow args ret).Within P) : (Ty.tuple args).Within P ∧ ret.Within P :=
  ⟨Ty.Within.tuple fun a ha v hv => h v (Ty.mem_vars_arrow.2 (.inl ⟨a, ha, hv⟩)),
    fun v hv => h v (Ty.mem_vars_arrow.2 (.inr hv))⟩

theorem Ty.Within.of_tuple {P : Int → Prop} {elems : List Ty} (h : (Ty.tuple elems).Within P) :
    ∀ t ∈ elems, t.Within P :=
  fun t ht v hv => h v (Ty.mem_vars_tuple.2 ⟨t, ht, hv⟩)

/-- All ids in the two types of the error satisfy `P`. -/
def TypeError.Within (P : Int → Prop) (e : TypeError) : Prop :=
  e.left.Within P ∧ e.right.Within P

/-- The types that cannot be made alike mention only ids of the constraints. -/
theorem within_of_solve {P : Int → Prop} (cs : List Constraint)
    (hcs : ∀ c ∈ cs, c.Both (Ty.Within P)) {e : TypeError} (he : (solve cs).failure = some e) :
    e.Within P := by
  have hreplace {v : Int} {t : Ty} {rest : List Constraint} (ht : t.Within P)
      (hrest : ∀ c ∈ rest, c.Both (Ty.Within P)) :
      ∀ c ∈ Constraint.replaceAll rest v t, c.Both (Ty.Within P) :=
    Constraint.forall_mem_replaceAll.2 fun c hc =>
      ⟨(hrest c hc).1.replace ht, (hrest c hc).2.replace ht⟩
  fun_induction solve cs with
  | case1 => cases he
  | case2 v rest ih => exact ih (List.forall_mem_cons.1 hcs).2 he
  | case3 v t rest hne hv =>
    obtain rfl := Option.some.inj he
    exact (List.forall_mem_cons.1 hcs).1
  | case4 v t rest hne hv r ih =>
    obtain ⟨hc, hrest⟩ := List.forall_mem_cons.1 hcs
    exact ih (hreplace hc.2 hrest) he
  | case5 t v rest hvar hv =>
    obtain rfl := Option.some.inj he
    exact (List.forall_mem_cons.1 hcs).1.symm
  | case6 t v rest hvar hv r ih =>
    obtain ⟨hc, hrest⟩ := List.forall_mem_cons.1 hcs
    exact ih (hreplace hc.1 hrest) he
  | case7 n rest ih => exact ih (List.forall_mem_cons.1 hcs).2 he
  | case8 =>
    obtain rfl := Option.some.inj he
    exact (List.forall_mem_cons.1 hcs).1
  | case9 as r bs s rest ih =>
    obtain ⟨hc, hrest⟩ := List.forall_mem_cons.1 hcs
    exact ih (List.forall_mem_cons.2 ⟨⟨hc.1.of_arrow.1, hc.2.of_arrow.1⟩,
      List.forall_mem_cons.2 ⟨⟨hc.1.of_arrow.2, hc.2.of_arrow.2⟩, hrest⟩⟩) he
  | case10 as bs rest hlen ih =>
    obtain ⟨hc, hrest⟩ := List.forall_mem_cons.1 hcs
    exact ih (List.forall_mem_append.2
      ⟨Constraint.both_between hc.1.of_tuple hc.2.of_tuple, hrest⟩) he
  | case11 =>
    obtain rfl := Option.some.inj he
    exact (List.forall_mem_cons.1 hcs).1
  | case12 =>
    obtain rfl := Option.some.inj he
    exact (List.forall_mem_cons.1 hcs).1

/-! ### Slots -/

namespace Expr

/-- All ids in the slots of the tree satisfy `P`. -/
def Within (P : Int → Prop) (e : Expr) : Prop :=
  ∀ s ∈ e.slots, s.type.Within P

variable {P : Int → Prop}

theorem within_iff {e : Expr} (h : e.isAbsent = false) :
    e.Within P ↔ (∀ s ∈ e.ownSlots, s.type.Within P) ∧ ∀ c ∈ e.children, c.Within P := by
  rw [Within, forall_mem_slots, everywhere_iff h]
  simp only [Within, forall_mem_slots]

theorem forall_mem_slotVars {e : Expr} : (∀ v ∈ e.slotVars, P v) ↔ e.Within P :=
  List.forall_mem_flatMap

theorem Within.mapSlots {f : Ty → Ty} {e : Expr} (h : e.Within P)
    (hf : ∀ t : Ty, t.Within P → (f t).Within P) : (e.mapSlots f).Within P := by
  rw [Within, ← List.forall_mem_map (f := Slot.type), map_type_slots_mapSlots, List.forall_mem_map]
  intro s hs
  split
  · exact h s hs
  · exact hf s.type (h s hs)

variable {c l r v e : Expr} {es args : List Expr} {t : Ty} {b : Binding} {bs : List Binding}

theorem within_not : (Expr.not e).Within P ↔ e.Within P := by
  simp [within_iff (e := .not e) rfl, ownSlots, children]

theorem within_neg : (Expr.neg e).Within P ↔ e.Within P := by
  simp [within_iff (e := .neg e) rfl, ownSlots, children]

theorem within_arith {op : ArithOp} : (Expr.arith op l r).Within P ↔ l.Within P ∧ r.Within P := by
  simp [within_iff (e := .arith op l r) rfl, ownSlots, children]

theorem within_eq : (Expr.eq l r).Within P ↔ l.Within P ∧ r.Within P := by
  simp [within_iff (e := .eq l r) rfl, ownSlots, children]

theorem within_le : (Expr.le l r).Within P ↔ l.Within P ∧ r.Within P := by
  simp [within_iff (e := .le l r) rfl, ownSlots, children]

theorem within_ite : (Expr.ite c l r).Within P ↔ c.Within P ∧ l.Within P ∧ r.Within P := by
  simp [within_iff (e := .ite c l r) rfl, ownSlots, children]

theorem within_letIn :
    (Expr.letIn b v e).Within P ↔ b.slot.Within P ∧ v.Within P ∧ e.Within P := by
  simp [within_iff (e := .letIn b v e) rfl, ownSlots, children]

theorem within_letRec : (Expr.letRec b bs v e).Within P ↔
    (b.slot.Within P ∧ ∀ a ∈ bs, a.slot.Within P) ∧ v.Within P ∧ e.Within P := by
  simp [within_iff (e := .letRec b bs v e) rfl, ownSlots, children]

theorem within_app : (Expr.app e args t).Within P ↔
    t.Within P ∧ e.Within P ∧ ∀ a ∈ args, a.Within P := by
  simp [within_iff (e := .app e args t) rfl, ownSlots, children]

theorem within_tuple : (Expr.tuple es).Within P ↔ ∀ e ∈ es, e.Within P := by
  simp [within_iff (e := .tuple es) rfl, ownSlots, children]

theorem within_letTuple : (Expr.letTuple bs v e).Within P ↔
    (∀ b ∈ bs, b.slot.Within P) ∧ v.Within P ∧ e.Within P := by
  simp [within_iff (e := .letTuple bs v e) rfl, ownSlots, children]

end Expr

/-! ### Known ids -/

namespace State

/-- The id satisfies `B`, or it has been drawn. -/
def Known (B : Int → Prop) (st : State) (v : Int) : Prop :=
  B v ∨ .drawn v ∈ st.trace

variable {B : Int → Prop} {st st₁ : State} {t a b : Ty}

/-- What is known stays known. -/
theorem Known.later {v : Int} (h : st.Known B v) (hp : st.trace <+: st₁.trace) : st₁.Known B v :=
  h.imp_right fun hv => hp.subset hv

/-- Free ids of the environment, and all ids of the substitution, are known. -/
structure Stems (B : Int → Prop) (st : State) : Prop where
  env : ∀ x ∈ st.env, ∀ v, v ∈ x.scheme.freeVars → st.Known B v
  subst : st.subst.Within (st.Known B)

end State

section Later

variable {B : Int → Prop} {st st₁ : State} (hp : st.trace <+: st₁.trace)

include hp

theorem Ty.Within.later {t : Ty} (h : t.Within (st.Known B)) : t.Within (st₁.Known B) :=
  h.mono fun _ hv => hv.later hp

theorem Expr.Within.later {e : Expr} (h : e.Within (st.Known B)) : e.Within (st₁.Known B) :=
  fun s hs => (h s hs).later hp

theorem Subst.Within.later {s : Subst} (h : s.Within (st.Known B)) : s.Within (st₁.Known B) :=
  h.mono fun _ hv => hv.later hp

end Later

namespace State

variable {B : Int → Prop} {st st₁ : State} {t a b : Ty}

namespace Stems

/-- A step that has added nothing but events and perhaps left a scope. -/
theorem of_subset (h : st.Stems B) (henv : ∀ x ∈ st₁.env, x ∈ st.env)
    (hsubst : st₁.subst = st.subst) (hp : st.trace <+: st₁.trace) : st₁.Stems B :=
  ⟨fun x hx v hv => (h.env x (henv x hx) v hv).later hp, hsubst ▸ h.subst.later hp⟩

/-- A name is put in scope whose scheme has known free ids. -/
theorem push (h : st.Stems B) {x : Entry} (hx : ∀ v, v ∈ x.scheme.freeVars → st.Known B v)
    (henv : st₁.env = x :: st.env) (hsubst : st₁.subst = st.subst)
    (hp : st.trace <+: st₁.trace) : st₁.Stems B := by
  refine ⟨?_, hsubst ▸ h.subst.later hp⟩
  rw [henv, List.forall_mem_cons]
  exact ⟨fun v hv => (hx v hv).later hp, fun y hy v hv => (h.env y hy v hv).later hp⟩

theorem freshVar (h : st.Stems B) : st.freshVar.2.Stems B :=
  h.of_subset (fun _ hx => hx) rfl st.trace_prefix_freshVar

theorem instantiate (h : st.Stems B) (σ : Scheme) : (st.instantiate σ).2.Stems B :=
  h.of_subset (fun _ hx => hx) rfl (st.trace_prefix_instantiate σ)

theorem leave (h : st.Stems B) {n : Nat} (hl : st.leave? n = some st₁) : st₁.Stems B := by
  obtain ⟨-, rfl⟩ := leave?_eq_some.1 hl
  exact h.of_subset (fun _ hx => List.mem_of_mem_drop hx) rfl (List.prefix_refl _)

theorem pushMono (h : st.Stems B) (x : String) (ht : t.Within (st.Known B)) :
    (st.pushMono x t).Stems B :=
  h.push (x := ⟨x, .mono t⟩) (fun v hv => ht v (Scheme.mem_freeVars_mono.1 hv)) rfl rfl
    (List.prefix_refl _)

theorem bind (h : st.Stems B) {b : Binding} (hb : b.slot.Within (st.Known B)) :
    (st.bind b).Stems B :=
  h.push (x := ⟨b.name, _⟩) (fun v hv => hb v (Env.mem_freeVars_generalize.1 hv).1) rfl rfl
    (st.trace_prefix_bind b)

theorem refresh (h : st.Stems B) : st.refresh.Stems B := by
  refine ⟨fun x hx v hv => ?_, h.subst.later st.trace_prefix_refresh⟩
  obtain ⟨y, hy, rfl⟩ := List.mem_map.1 hx
  obtain ⟨hbody, hbound⟩ := Scheme.mem_freeVars.1 hv
  refine Known.later ?_ st.trace_prefix_refresh
  rcases Ty.mem_vars_apply hbody with hv | ⟨q, hq, hv⟩
  · exact h.env y hy v (Scheme.mem_freeVars.2 ⟨hv, hbound⟩)
  · exact (h.subst q (List.mem_of_mem_filter hq)).2 v hv

end Stems

theorem within_freshVar (st : State) : st.freshVar.1.Within (st.freshVar.2.Known B) := by
  intro v hv
  rw [Ty.mem_vars_var.1 hv]
  exact .inr (List.mem_append_right _ List.mem_cons_self)

/-- An instance of a scheme in scope mentions known ids. -/
theorem Stems.within_instantiate (h : st.Stems B) {x : String} {σ : Scheme}
    (hx : st.env.lookup x = some σ) :
    (st.instantiate σ).1.Within ((st.instantiate σ).2.Known B) := by
  intro v hv
  rcases Scheme.mem_vars_refresh hv with ⟨hbody, hbound⟩ | hdrawn
  · exact (h.env _ (Env.mem_of_lookup hx) v (Scheme.mem_freeVars.2 ⟨hbody, hbound⟩)).later
      (st.trace_prefix_instantiate σ)
  · exact .inr (List.mem_append_right _ (List.mem_map_of_mem hdrawn))

section Unify

variable (h : st.Stems B) (ha : a.Within (st.Known B)) (hb : b.Within (st.Known B))

include h ha hb

/-- The types to be made alike, brought up to date. -/
theorem Stems.both_apply :
    ∀ c ∈ [Constraint.mk (a.apply st.subst) (b.apply st.subst)],
      c.Both (Ty.Within (st.Known B)) :=
  List.forall_mem_singleton.2 ⟨ha.apply h.subst, hb.apply h.subst⟩

/-- A unification step that ends well learns equations between known ids. -/
theorem Stems.unify : (st.unify a b).1.Stems B := by
  have hp := st.trace_prefix_unify a b
  rw [State.unify] at hp ⊢
  cases hf : (solve [⟨a.apply st.subst, b.apply st.subst⟩]).failure with
  | some e =>
    simp only [hf] at hp
    exact h.of_subset (fun _ hx => hx) rfl hp
  | none =>
    simp only [hf] at hp
    have hsolved := (solved_of_solve _ hf).within (h.both_apply ha hb)
    exact ⟨fun x hx v hv => (h.env x hx v hv).later hp,
      Subst.within_append.2 ⟨h.subst.later hp, hsolved.later hp⟩⟩

/-- One that fails names two types with known ids. -/
theorem Stems.within_unify {e : TypeError} (he : st.unify a b = (st₁, some e)) :
    e.Within (st₁.Known B) := by
  have hp := st.trace_prefix_unify a b
  rw [he] at hp
  rw [State.unify] at he
  cases hf : (solve [⟨a.apply st.subst, b.apply st.subst⟩]).failure with
  | some e' =>
    simp only [hf, Prod.mk.injEq, Option.some.injEq] at he
    obtain ⟨-, rfl⟩ := he
    obtain ⟨hl, hr⟩ := within_of_solve _ (h.both_apply ha hb) hf
    exact ⟨hl.later hp, hr.later hp⟩
  | none =>
    simp only [hf] at he
    cases (Prod.mk.inj he).2

end Unify

/-- A binding has its own type, or a fresh variable. -/
theorem Stems.declare (h : st.Stems B) {b : Binding} (hb : b.slot.Within (st.Known B)) :
    (st.declare b).2.Stems B ∧ (st.declare b).1.slot.Within ((st.declare b).2.Known B) := by
  rw [State.declare]
  split
  · exact ⟨h.freshVar, st.within_freshVar⟩
  · exact ⟨h, hb⟩

theorem Stems.enter (h : st.Stems B) {bs : List Binding}
    (hbs : ∀ b ∈ bs, b.slot.Within (st.Known B)) :
    (st.enter bs).2.Stems B ∧ ∀ b ∈ (st.enter bs).1, b.slot.Within ((st.enter bs).2.Known B) := by
  induction bs generalizing st with
  | nil => exact ⟨h, hbs⟩
  | cons b bs ih =>
    rw [List.forall_mem_cons] at hbs
    have hp := st.trace_prefix_declare b
    obtain ⟨hdeclare, hslot⟩ := h.declare hbs.1
    have hpush := hdeclare.pushMono (st.declare b).1.name hslot
    obtain ⟨henter, hrest⟩ := ih hpush fun c hc => (hbs.2 c hc).later hp
    exact ⟨henter, List.forall_mem_cons.2
      ⟨hslot.later (((st.declare b).2.pushMono _ _).trace_prefix_enter bs), hrest⟩⟩

/-- The scope in which names are known with generalized types. -/
theorem Stems.rest (h : st.Stems B) {bs : List Binding}
    (hbs : ∀ b ∈ bs, b.slot.Within (st.Known B)) : (bs.foldl State.bind st.refresh).Stems B := by
  have hbind : ∀ {bs : List Binding} {st : State}, st.Stems B →
      (∀ b ∈ bs, b.slot.Within (st.Known B)) → (bs.foldl State.bind st).Stems B := by
    intro bs
    induction bs with
    | nil => exact fun h _ => h
    | cons b bs ih =>
      intro st h hbs
      rw [List.forall_mem_cons] at hbs
      exact ih (h.bind hbs.1) fun c hc => (hbs.2 c hc).later (st.trace_prefix_bind b)
  exact hbind h.refresh fun b hb => (hbs b hb).later st.trace_prefix_refresh

theorem trace_prefix_rest (st : State) (bs : List Binding) :
    st.trace <+: (bs.foldl State.bind st.refresh).trace :=
  st.trace_prefix_refresh.trans (st.refresh.trace_prefix_foldl_bind bs)

theorem Stems.resolve (h : st.Stems B) {b : Binding} (hb : b.slot.Within (st.Known B)) :
    (st.resolve b).slot.Within (st.Known B) :=
  hb.apply h.subst

end State

/-! ### Outcomes -/

/-- All ids in the types of the error satisfy `P`. -/
def InferError.Within (P : Int → Prop) : InferError → Prop
  | .type e => e.Within P
  | _ => True

theorem InferError.Within.later {B : Int → Prop} {st st₁ : State} (hp : st.trace <+: st₁.trace)
    {e : InferError} (h : e.Within (st.Known B)) : e.Within (st₁.Known B) := by
  cases e with
  | type e => exact ⟨h.1.later hp, h.2.later hp⟩
  | _ => trivial

namespace Outcome

variable {τ τ' ρ ρ' : Type}

/-- A step from the state `st` that gives back known ids only: those of the tree as told by `W`,
and those of the result as told by `V`, or those of the failure. -/
structure Stems (B : Int → Prop) (W : (Int → Prop) → τ → Prop) (V : (Int → Prop) → ρ → Prop)
    (st : State) (o : Outcome τ ρ) : Prop where
  keeps : o.Keeps st
  state : o.state.Stems B
  tree : W (o.state.Known B) o.tree
  value : ∀ v, o.result = .ok v → V (o.state.Known B) v
  failure : ∀ f, o.result = .error f → f.error.Within (o.state.Known B)

variable {B : Int → Prop} {W : (Int → Prop) → τ → Prop} {V : (Int → Prop) → ρ → Prop}
  {W' : (Int → Prop) → τ' → Prop} {V' : (Int → Prop) → ρ' → Prop} {st st₁ : State}

theorem Stems.of_isPrefix {o : Outcome τ ρ} (h : o.Stems B W V st₁) (hp : st.trace <+: st₁.trace) :
    o.Stems B W V st :=
  { h with keeps := h.keeps.of_isPrefix hp }

theorem stems_done {a : τ} {v : ρ} (h : st.Stems B) (ha : W (st.Known B) a)
    (hv : V (st.Known B) v) : (done a st v).Stems B W V st where
  keeps := List.prefix_refl _
  state := h
  tree := ha
  value := fun _ heq => Except.ok.inj heq ▸ hv
  failure := nofun

theorem stems_failed {a : τ} (f : Failure) (h : st.Stems B) (ha : W (st.Known B) a)
    (hf : f.error.Within (st.Known B)) : (failed a st f : Outcome τ ρ).Stems B W V st where
  keeps := List.prefix_refl _
  state := h
  tree := ha
  value := nofun
  failure := fun _ heq => Except.error.inj heq ▸ hf

/-- What follows a step may rely on what the step gave back, and on being later. -/
theorem Stems.andThen {o : Outcome τ ρ} (ho : o.Stems B W V st) {rebuild : τ → τ'}
    {blame : Failure → Failure} {next : τ → State → ρ → Outcome τ' ρ'}
    (hrebuild : ∀ (st₁ : State) a, st.trace <+: st₁.trace → W (st₁.Known B) a →
      W' (st₁.Known B) (rebuild a))
    (hblame : ∀ f, (blame f).error = f.error)
    (hnext : ∀ a (st₁ : State) v, st.trace <+: st₁.trace → st₁.Stems B → W (st₁.Known B) a →
      V (st₁.Known B) v → (next a st₁ v).Stems B W' V' st₁) :
    (o.andThen rebuild blame next).Stems B W' V' st := by
  rw [Outcome.andThen]
  split
  · rename_i f hf
    refine (stems_failed (blame f) ho.state (hrebuild _ _ ho.keeps ho.tree) ?_).of_isPrefix ho.keeps
    exact hblame f ▸ ho.failure f hf
  · rename_i v hv
    exact (hnext _ _ v ho.keeps ho.state ho.tree (ho.value v hv)).of_isPrefix ho.keeps

section Steps

variable {tree : Expr} {a b r : Ty} {next : State → Outcome Expr Ty}

/-- A step of inference. -/
abbrev StemsExpr (B : Int → Prop) (st : State) (o : Outcome Expr Ty) : Prop :=
  o.Stems B Expr.Within Ty.Within st

theorem Stems.leaving {o : Outcome Expr Ty} (ho : o.StemsExpr B st) {rebuild : Expr → Expr}
    {i n : Nat} (hrebuild : ∀ (st₁ : State) (e : Expr), st.trace <+: st₁.trace →
      e.Within (st₁.Known B) → (rebuild e).Within (st₁.Known B)) :
    (o.leaving rebuild i n).StemsExpr B st := by
  have htree := hrebuild _ _ ho.keeps ho.tree
  rw [Outcome.leaving]
  split
  · exact (stems_failed (.here .scopeUnderflow) ho.state htree trivial).of_isPrefix ho.keeps
  · rename_i st₁ hl
    have hp : o.state.trace <+: st₁.trace := State.trace_leave? hl ▸ List.prefix_refl _
    split
    · rename_i f hf
      exact (stems_failed (f.under i) (ho.state.leave hl) (htree.later hp)
        ((ho.failure f hf).later hp)).of_isPrefix (ho.keeps.trans hp)
    · rename_i t ht
      exact (stems_done (ho.state.leave hl) (htree.later hp)
        ((ho.value t ht).later hp)).of_isPrefix (ho.keeps.trans hp)

theorem stems_unifyThen (h : st.Stems B) (htree : tree.Within (st.Known B))
    (ha : a.Within (st.Known B)) (hb : b.Within (st.Known B))
    (hnext : ∀ st₁ : State, st.trace <+: st₁.trace → st₁.Stems B → (next st₁).StemsExpr B st₁) :
    (st.unifyThen tree a b next).StemsExpr B st := by
  have hp := st.trace_prefix_unify a b
  have hst := h.unify ha hb
  rw [State.unifyThen]
  split
  · rename_i st₁ e heq
    rw [heq] at hp hst
    exact (stems_failed (.here (.type e)) hst (htree.later hp)
      (h.within_unify ha hb heq)).of_isPrefix hp
  · rename_i st₁ heq
    rw [heq] at hp hst
    exact (hnext st₁ hp hst).of_isPrefix hp

theorem stems_constrain (h : st.Stems B) (htree : tree.Within (st.Known B))
    (ha : a.Within (st.Known B)) (hb : b.Within (st.Known B)) (hr : r.Within (st.Known B)) :
    (st.constrain tree a b r).StemsExpr B st :=
  stems_unifyThen h htree ha hb fun _ hp h₁ => stems_done h₁ (htree.later hp) (hr.later hp)

theorem stems_leaveThen {n : Nat} (h : st.Stems B) (htree : tree.Within (st.Known B))
    (hnext : ∀ st₁ : State, st.trace <+: st₁.trace → st₁.Stems B → (next st₁).StemsExpr B st₁) :
    (st.leaveThen tree n next).StemsExpr B st := by
  rw [State.leaveThen]
  split
  · exact stems_failed _ h htree trivial
  · rename_i st₁ hl
    have hp : st.trace <+: st₁.trace := State.trace_leave? hl ▸ List.prefix_refl _
    exact (hnext st₁ hp (h.leave hl)).of_isPrefix hp

end Steps

end Outcome

/-! ### Whole trees -/

section Runs

open LetPoly.Expr

variable {B : Int → Prop}

theorem within_const (P : Int → Prop) (n : String) : (Ty.const n).Within P :=
  fun _ hv => absurd hv List.not_mem_nil

mutual

/-- **Inference gives back known ids only**, whether it ends well or not. -/
theorem infer_stems : (e : Expr) → {st : State} → st.Stems B → e.Within (st.Known B) →
    (infer e st).StemsExpr B st
  | .absent, _, h, he => stems_failed _ h he trivial
  | .unit, _, h, he => stems_done h he (within_const _ _)
  | .bool _, _, h, he => stems_done h he (within_const _ _)
  | .int _, _, h, he => stems_done h he (within_const _ _)
  | .var x, st, h, he => by
    rw [infer]
    split
    · exact stems_failed _ h he trivial
    · rename_i σ hx
      have hp := st.trace_prefix_instantiate σ
      exact (stems_done (h.instantiate σ) (he.later hp) (h.within_instantiate hx)).of_isPrefix hp
  | .not e, _, h, he => by
    rw [within_not] at he
    refine (infer_stems e h he).andThen (fun _ _ _ => within_not.2) (fun _ => rfl)
      fun e' st₁ t _ h₁ he' ht => ?_
    exact stems_constrain h₁ (within_not.2 he') (within_const _ _) ht (within_const _ _)
  | .neg e, _, h, he => by
    rw [within_neg] at he
    refine (infer_stems e h he).andThen (fun _ _ _ => within_neg.2) (fun _ => rfl)
      fun e' st₁ t _ h₁ he' ht => ?_
    exact stems_constrain h₁ (within_neg.2 he') (within_const _ _) ht (within_const _ _)
  | .arith op l r, _, h, he => by
    obtain ⟨hl, hr⟩ := within_arith.1 he
    refine (infer_stems l h hl).andThen (fun _ _ hp hl' => within_arith.2 ⟨hl', hr.later hp⟩)
      (fun _ => rfl) fun l' st₁ t₁ hp₁ h₁ hl' ht₁ => ?_
    refine (infer_stems r h₁ (hr.later hp₁)).andThen
      (fun _ _ hp hr' => within_arith.2 ⟨hl'.later hp, hr'⟩) (fun _ => rfl)
      fun r' st₂ t₂ hp₂ h₂ hr' ht₂ => ?_
    have htree : (Expr.arith op l' r').Within (st₂.Known B) := within_arith.2 ⟨hl'.later hp₂, hr'⟩
    refine stems_unifyThen h₂ htree (ht₁.later hp₂) ht₂ fun st₃ hp₃ h₃ => ?_
    exact stems_constrain h₃ (htree.later hp₃) ((ht₁.later hp₂).later hp₃) (within_const _ _)
      (within_const _ _)
  | .eq l r, _, h, he => by
    obtain ⟨hl, hr⟩ := within_eq.1 he
    refine (infer_stems l h hl).andThen (fun _ _ hp hl' => within_eq.2 ⟨hl', hr.later hp⟩)
      (fun _ => rfl) fun l' st₁ t₁ hp₁ h₁ hl' ht₁ => ?_
    refine (infer_stems r h₁ (hr.later hp₁)).andThen
      (fun _ _ hp hr' => within_eq.2 ⟨hl'.later hp, hr'⟩) (fun _ => rfl)
      fun r' st₂ t₂ hp₂ h₂ hr' ht₂ => ?_
    exact stems_constrain h₂ (within_eq.2 ⟨hl'.later hp₂, hr'⟩) (ht₁.later hp₂) ht₂
      (within_const _ _)
  | .le l r, _, h, he => by
    obtain ⟨hl, hr⟩ := within_le.1 he
    refine (infer_stems l h hl).andThen (fun _ _ hp hl' => within_le.2 ⟨hl', hr.later hp⟩)
      (fun _ => rfl) fun l' st₁ t₁ hp₁ h₁ hl' ht₁ => ?_
    refine stems_unifyThen h₁ (within_le.2 ⟨hl', hr.later hp₁⟩) (within_const _ _) ht₁
      fun st₂ hp₂ h₂ => ?_
    refine (infer_stems r h₂ ((hr.later hp₁).later hp₂)).andThen
      (fun _ _ hp hr' => within_le.2 ⟨(hl'.later hp₂).later hp, hr'⟩) (fun _ => rfl)
      fun r' st₃ t₂ hp₃ h₃ hr' ht₂ => ?_
    exact stems_constrain h₃ (within_le.2 ⟨(hl'.later hp₂).later hp₃, hr'⟩) (within_const _ _) ht₂
      (within_const _ _)
  | .ite c e₁ e₂, _, h, he => by
    obtain ⟨hc, hyes, hno⟩ := within_ite.1 he
    refine (infer_stems c h hc).andThen
      (fun _ _ hp hc' => within_ite.2 ⟨hc', hyes.later hp, hno.later hp⟩) (fun _ => rfl)
      fun c' st₁ t₁ hp₁ h₁ hc' ht₁ => ?_
    refine stems_unifyThen h₁ (within_ite.2 ⟨hc', hyes.later hp₁, hno.later hp₁⟩)
      (within_const _ _) ht₁ fun st₂ hp₂ h₂ => ?_
    replace hc' := hc'.later hp₂
    replace hyes := (hyes.later hp₁).later hp₂
    replace hno := (hno.later hp₁).later hp₂
    refine (infer_stems e₁ h₂ hyes).andThen
      (fun _ _ hp hyes' => within_ite.2 ⟨hc'.later hp, hyes', hno.later hp⟩) (fun _ => rfl)
      fun e₁' st₃ t₂ hp₃ h₃ hyes' ht₂ => ?_
    refine (infer_stems e₂ h₃ (hno.later hp₃)).andThen
      (fun _ _ hp hno' => within_ite.2 ⟨(hc'.later hp₃).later hp, hyes'.later hp, hno'⟩)
      (fun _ => rfl) fun e₂' st₄ t₃ hp₄ h₄ hno' ht₃ => ?_
    have htree : (Expr.ite c' e₁' e₂').Within (st₄.Known B) :=
      within_ite.2 ⟨(hc'.later hp₃).later hp₄, hyes'.later hp₄, hno'⟩
    refine stems_unifyThen h₄ htree (ht₂.later hp₄) ht₃ fun st₅ hp₅ h₅ => ?_
    exact stems_done h₅ (htree.later hp₅) (((ht₂.later hp₄).later hp₅).apply h₅.subst)
  | .letIn b v e, st, h, he => by
    obtain ⟨hb, hv, he⟩ := within_letIn.1 he
    have hp₀ := st.trace_prefix_declare b
    obtain ⟨h₀, hb⟩ := h.declare hb
    replace hv := hv.later hp₀
    replace he := he.later hp₀
    rw [infer]
    refine Stems.of_isPrefix ?_ hp₀
    refine (infer_stems v h₀ hv).andThen
      (fun _ _ hp hv' => within_letIn.2 ⟨hb.later hp, hv', he.later hp⟩) (fun _ => rfl)
      fun v' st₁ t hp₁ h₁ hv' ht => ?_
    replace hb := hb.later hp₁
    replace he := he.later hp₁
    refine stems_unifyThen h₁ (within_letIn.2 ⟨hb, hv', he⟩) hb ht fun st₂ hp₂ h₂ => ?_
    replace hb := h₂.resolve (hb.later hp₂)
    replace hv' := hv'.later hp₂
    have hp₃ := st₂.trace_prefix_rest [st₂.resolve (st.declare b).1]
    refine Stems.of_isPrefix ?_ hp₃
    refine (infer_stems e (h₂.rest (List.forall_mem_singleton.2 hb))
      ((he.later hp₂).later hp₃)).leaving fun _ e' hp he' => ?_
    exact within_letIn.2 ⟨(hb.later hp₃).later hp, (hv'.later hp₃).later hp, he'⟩
  | .letRec fn args body rest, st, h, he => by
    obtain ⟨⟨hfn, hargs⟩, hbody, hrest⟩ := within_letRec.1 he
    have hp₀ := st.trace_prefix_declare fn
    obtain ⟨h₀, hfn⟩ := h.declare hfn
    obtain ⟨h₁, hargs⟩ := (h₀.pushMono (st.declare fn).1.name hfn).enter
      fun b hb => (hargs b hb).later hp₀
    have hp₁ := ((st.declare fn).2.pushMono (st.declare fn).1.name
      (st.declare fn).1.slot).trace_prefix_enter args
    replace hfn := hfn.later hp₁
    replace hbody := (hbody.later hp₀).later hp₁
    replace hrest := (hrest.later hp₀).later hp₁
    rw [infer]
    refine Stems.of_isPrefix ?_ (hp₀.trans hp₁)
    refine (infer_stems body h₁ hbody).andThen (fun _ _ hp hbody' => within_letRec.2
      ⟨⟨hfn.later hp, fun b hb => (hargs b hb).later hp⟩, hbody', hrest.later hp⟩) (fun _ => rfl)
      fun body' st₂ ret hp₂ h₂ hbody' hret => ?_
    replace hfn := hfn.later hp₂
    replace hargs := fun b hb => (hargs b hb).later hp₂
    replace hrest := hrest.later hp₂
    have htree := within_letRec.2 ⟨⟨hfn, hargs⟩, hbody', hrest⟩
    refine stems_leaveThen h₂ htree fun st₃ hp₃ h₃ => ?_
    replace hfn := hfn.later hp₃
    replace hargs := fun b hb => (hargs b hb).later hp₃
    have harrow := Ty.Within.arrow (List.forall_mem_map.2 hargs) (hret.later hp₃)
    refine stems_unifyThen h₃ (htree.later hp₃) hfn harrow fun st₄ hp₄ h₄ => ?_
    replace hfn := h₄.resolve (hfn.later hp₄)
    replace hargs := fun b hb => h₄.resolve ((hargs b hb).later hp₄)
    replace hbody' := (hbody'.later hp₃).later hp₄
    have hp₅ := st₄.trace_prefix_rest [st₄.resolve (st.declare fn).1]
    refine Stems.of_isPrefix ?_ hp₅
    refine (infer_stems rest (h₄.rest (List.forall_mem_singleton.2 hfn))
      (((hrest.later hp₃).later hp₄).later hp₅)).leaving fun _ rest' hp hrest' => ?_
    refine within_letRec.2 ⟨⟨(hfn.later hp₅).later hp, List.forall_mem_map.2 fun b hb => ?_⟩,
      (hbody'.later hp₅).later hp, hrest'⟩
    exact ((hargs b hb).later hp₅).later hp
  | .app fn args slot, _, h, he => by
    obtain ⟨hslot, hfn, hargs⟩ := within_app.1 he
    refine (infer_stems fn h hfn).andThen (fun _ _ hp hfn' => within_app.2
      ⟨hslot.later hp, hfn', fun a ha => (hargs a ha).later hp⟩) (fun _ => rfl)
      fun fn' st₁ t hp₁ h₁ hfn' ht => ?_
    replace hslot := hslot.later hp₁
    refine (inferAll_stems 1 args h₁ fun a ha => (hargs a ha).later hp₁).andThen
      (fun _ _ hp hargs' => within_app.2 ⟨hslot.later hp, hfn'.later hp, hargs'⟩) (fun _ => rfl)
      fun args' st₂ ts hp₂ h₂ hargs' hts => ?_
    have hp₃ := st₂.trace_prefix_freshVar
    have hret := st₂.within_freshVar (B := B)
    replace hfn' := (hfn'.later hp₂).later hp₃
    replace hargs' := fun a ha => (hargs' a ha).later hp₃
    refine Stems.of_isPrefix ?_ hp₃
    refine stems_unifyThen h₂.freshVar
      (within_app.2 ⟨(hslot.later hp₂).later hp₃, hfn', hargs'⟩)
      (.arrow (fun s hs => (hts s hs).later hp₃) hret) ((ht.later hp₂).later hp₃)
      fun st₄ hp₄ h₄ => ?_
    replace hret := (hret.later hp₄).apply h₄.subst
    exact stems_done h₄
      (within_app.2 ⟨hret, hfn'.later hp₄, fun a ha => (hargs' a ha).later hp₄⟩) hret
  | .tuple es, _, h, he => by
    refine (inferAll_stems 0 es h (within_tuple.1 he)).andThen (fun _ _ _ => within_tuple.2)
      (fun _ => rfl) fun es' st₁ ts _ h₁ hes' hts => ?_
    exact stems_done h₁ (within_tuple.2 hes') (.tuple hts)
  | .letTuple vars v e, st, h, he => by
    obtain ⟨hvars, hv, he⟩ := within_letTuple.1 he
    have hp₀ := st.trace_prefix_enter vars
    obtain ⟨h₀, hvars⟩ := h.enter hvars
    replace hv := hv.later hp₀
    replace he := he.later hp₀
    rw [infer]
    refine Stems.of_isPrefix ?_ hp₀
    refine (infer_stems v h₀ hv).andThen (fun _ _ hp hv' => within_letTuple.2
      ⟨fun b hb => (hvars b hb).later hp, hv', he.later hp⟩) (fun _ => rfl)
      fun v' st₁ t hp₁ h₁ hv' ht => ?_
    replace hvars := fun b hb => (hvars b hb).later hp₁
    have htree := within_letTuple.2 ⟨hvars, hv', he.later hp₁⟩
    refine stems_leaveThen h₁ htree fun st₂ hp₂ h₂ => ?_
    replace hvars := fun b hb => (hvars b hb).later hp₂
    refine stems_unifyThen h₂ (htree.later hp₂) (ht.later hp₂)
      (.tuple (List.forall_mem_map.2 hvars)) fun st₃ hp₃ h₃ => ?_
    replace hvars : ∀ b ∈ (st.enter vars).1.map st₃.resolve, b.slot.Within (st₃.Known B) :=
      List.forall_mem_map.2 fun b hb => h₃.resolve ((hvars b hb).later hp₃)
    replace hv' := (hv'.later hp₂).later hp₃
    have hp₄ := st₃.trace_prefix_rest ((st.enter vars).1.map st₃.resolve)
    refine Stems.of_isPrefix ?_ hp₄
    refine (infer_stems e (h₃.rest hvars)
      ((((he.later hp₁).later hp₂).later hp₃).later hp₄)).leaving fun _ e' hp he' => ?_
    exact within_letTuple.2 ⟨fun b hb => ((hvars b hb).later hp₄).later hp,
      (hv'.later hp₄).later hp, he'⟩
  | .foreign _, _, h, he => stems_failed _ h he trivial

theorem inferAll_stems (i : Nat) : (es : List Expr) → {st : State} → st.Stems B →
    (∀ e ∈ es, e.Within (st.Known B)) →
    (inferAll i es st).Stems B (fun P es => ∀ e ∈ es, e.Within P) (fun P ts => ∀ t ∈ ts, t.Within P)
      st
  | [], _, h, hes => stems_done h hes nofun
  | e :: es, _, h, hes => by
    obtain ⟨he, hes⟩ := List.forall_mem_cons.1 hes
    refine (infer_stems e h he).andThen
      (fun _ _ hp he' => List.forall_mem_cons.2 ⟨he', fun c hc => (hes c hc).later hp⟩)
      (fun _ => rfl) fun e' st₁ t hp₁ h₁ he' ht => ?_
    refine (inferAll_stems (i + 1) es h₁ fun c hc => (hes c hc).later hp₁).andThen
      (fun _ _ hp hes' => List.forall_mem_cons.2 ⟨he'.later hp, hes'⟩) (fun _ => rfl)
      fun es' st₂ ts hp₂ h₂ hes' hts => ?_
    exact stems_done h₂ (List.forall_mem_cons.2 ⟨he'.later hp₂, hes'⟩)
      (List.forall_mem_cons.2 ⟨ht.later hp₂, hts⟩)

end

end Runs

/-! ### Passes -/

/-- The ids that the equations mention, bound ones and others. -/
def Subst.ids (s : Subst) : List Int :=
  s.flatMap fun q => q.var :: q.type.vars

theorem Subst.forall_mem_ids {P : Int → Prop} {s : Subst} : (∀ v ∈ s.ids, P v) ↔ s.Within P := by
  rw [ids, List.forall_mem_flatMap]
  simp only [List.forall_mem_cons]
  rfl

/-- The ids in the type that was found, or in the two types of the error. -/
def Verdict.ids : Verdict → List Int
  | .inferred t => t.vars
  | .failed (.type e) => e.left.vars ++ e.right.vars
  | _ => []

/-- The ids that a pass leaves behind: those of its verdict, in the slots of the tree, and in the
substitution. -/
def Pass.ids (p : Pass) : List Int :=
  p.verdict.ids ++ p.tree.slotVars ++ p.context.subst.ids

/-- The pass accounts for its ids: the supply has gone on from `n` by as many ids as were drawn, and
each id left behind occurred in a slot, is free in the environment, or was drawn. -/
structure Pass.Accounts (p : Pass) (ctx : Context) (env : Env) (root : Expr) (n : Int) : Prop where
  supply : p.context.supply = ctx.supply.map fun _ => ⟨n + (drawn p.trace).length⟩
  ids : ∀ v ∈ p.ids, v ∈ root.slotVars ∨ v ∈ env.freeVars ∨
    n ≤ v ∧ v < n + (drawn p.trace).length

theorem Pass.Accounts.of_given {p : Pass} {ctx : Context} {env : Env} {root given : Expr} {n : Int}
    (h : p.Accounts ctx env root n) : { p with given }.Accounts ctx env root n :=
  ⟨h.supply, h.ids⟩

namespace Context

variable {ctx : Context} {mode : Mode} {env : Env} {root : Expr} {n : Int}

theorem known_of_mem_conclude {B : Int → Prop} {st : State} {o : Outcome Expr Ty}
    (ho : o.StemsExpr B st) : ∀ v ∈ (ctx.conclude o).ids, o.state.Known B v := by
  have hsubst : ∀ v ∈ o.state.subst.ids, o.state.Known B v :=
    Subst.forall_mem_ids.2 ho.state.subst
  cases hr : o.result with
  | ok t =>
    have htree : (o.tree.mapSlots (·.apply o.state.subst)).Within (o.state.Known B) :=
      ho.tree.mapSlots fun _ ht => ht.apply ho.state.subst
    simp only [Pass.ids, conclude, hr, subst_record]
    rw [List.forall_mem_append, List.forall_mem_append]
    exact ⟨⟨(ho.value t hr).apply ho.state.subst, Expr.forall_mem_slotVars.2 htree⟩, hsubst⟩
  | error f =>
    have herror : ∀ v ∈ (Verdict.failed f.error).ids, o.state.Known B v := by
      have hf := ho.failure f hr
      cases herr : f.error with
      | type e =>
        rw [herr] at hf
        exact List.forall_mem_append.2 hf
      | _ => exact List.forall_mem_nil _
    simp only [Pass.ids, conclude, hr, subst_record]
    rw [List.forall_mem_append, List.forall_mem_append]
    exact ⟨⟨herror, Expr.forall_mem_slotVars.2 ho.tree⟩, hsubst⟩

theorem supply_conclude (ctx : Context) (o : Outcome Expr Ty) :
    (ctx.conclude o).context.supply = ctx.supply.map fun _ => o.state.supply := by
  rw [conclude]
  split <;> rw [record] <;> split <;> rfl

theorem supply_reset (ctx : Context) : ctx.reset.supply = ctx.supply := by
  rw [reset]
  split <;> rfl

/-- The ids at the start of inference are those in the slots and the free ones of the
environment. -/
theorem stems_start (env : Env) (root : Expr) (g : Supply) :
    (LetPoly.infer root ⟨env, [], g, []⟩).StemsExpr
      (fun v => v ∈ root.slotVars ∨ v ∈ env.freeVars) ⟨env, [], g, []⟩ :=
  infer_stems root
    ⟨fun x hx _ hv => .inl (.inr (Env.mem_freeVars.2 ⟨x, hx, hv⟩)), Subst.within_nil _⟩
    (Expr.forall_mem_slotVars.1 fun _ hv => .inl (.inl hv))

/-- A pass over no tree leaves everything as it was. -/
theorem accounts_of_absent (hg : ctx.passSupply env root = .ok ⟨n⟩) (hroot : root.isAbsent = true)
    (hsubst : ctx.subst = []) : (ctx.infer env root).Accounts ctx env root n := by
  rw [infer, hroot, if_pos rfl]
  refine ⟨?_, fun v hv => ?_⟩
  · rw [drawn, List.filterMap_nil, List.length_nil, Int.natCast_zero, Int.add_zero]
    rw [passSupply] at hg
    split at hg
    · rename_i g hsupply
      rw [hsupply, ← Except.ok.inj hg]
      rfl
    · rename_i hsupply
      rw [hsupply]
      rfl
  · rw [Pass.ids, hsubst] at hv
    simp only [Verdict.ids, Subst.ids, List.flatMap_nil, List.nil_append, List.append_nil] at hv
    exact .inl hv

/-- A pass that comes to inference accounts for what inference does. -/
theorem accounts_of_conclude (hlow : Supply.first ≤ n)
    (hroom : NoWrap (LetPoly.infer root ⟨env, [], ⟨n⟩, []⟩).state.trace) :
    (ctx.reset.conclude (LetPoly.infer root ⟨env, [], ⟨n⟩, []⟩)).Accounts ctx env root n := by
  obtain ⟨hids, hsupply⟩ := drawn_infer hlow hroom
  refine ⟨?_, fun v hv => ?_⟩
  · rw [supply_conclude, supply_reset, hsupply, trace_conclude]
  · rw [trace_conclude]
    rcases known_of_mem_conclude (stems_start env root ⟨n⟩) v hv with (hslot | hfree) | hdrawn
    · exact .inl hslot
    · exact .inr (.inl hfree)
    · rw [← mem_drawn, hids, Supply.mem_idsFrom] at hdrawn
      exact .inr (.inr hdrawn)

/-- **Every id that a pass leaves behind is accounted for.** Let a pass start with the supply at `n`
and end, well or with an error, without overflow, and let `n'` be where the supply is then. Every id
in the type that was found, in the slots of the tree, in the substitution and in the types of the
error occurred in a slot, is free in the environment, or lies between `n` and `n'`. So an id that is
quantified in the environment never leaks. A pass over no tree keeps the substitution of the pass
before, which must be empty then. -/
theorem ids_of_pass (hg : ctx.passSupply env root = .ok ⟨n⟩) (hlow : Supply.first ≤ n)
    (hroom : NoWrap (ctx.pass mode env root).trace)
    (hends : ∀ k, (ctx.pass mode env root).verdict ≠ .stopped k)
    (hleft : root.isAbsent = true → ctx.subst = []) :
    let p := ctx.pass mode env root
    let n' := n + (drawn p.trace).length
    p.context.supply = ctx.supply.map (fun _ => ⟨n'⟩) ∧ n ≤ n' ∧
    (∀ v ∈ p.ids, v ∈ root.slotVars ∨ v ∈ env.freeVars ∨ n ≤ v ∧ v < n') ∧
    ∀ x ∈ env, ∀ v ∈ x.scheme.bound.ids, v ∉ root.slotVars → ¬ v ∈ env.freeVars →
      v < n ∨ n' ≤ v → v ∉ p.ids := by
  intro p n'
  have hpass : p.Accounts ctx env root n := by
    rcases ctx.pass_eq mode env root with ⟨given, heq⟩ | ⟨k, heq⟩
    · have hsame : p = { ctx.infer env root with given } := heq
      rw [hsame]
      refine Pass.Accounts.of_given ?_
      cases hroot : root.isAbsent with
      | true => exact accounts_of_absent hg hroot (hleft hroot)
      | false =>
        have hroom' : NoWrap (LetPoly.infer root ⟨env, [], ⟨n⟩, []⟩).state.trace := by
          rw [← trace_infer hg hroot]
          rw [heq] at hroom
          exact hroom
        rw [infer_eq_conclude hg hroot]
        exact accounts_of_conclude hlow hroom'
    · exact absurd (congrArg Pass.verdict heq) (hends k)
  refine ⟨hpass.supply, by omega, hpass.ids, fun x hx v hv hslot hfree hlt hmem => ?_⟩
  rcases hpass.ids v hmem with h | h | h
  · exact hslot h
  · exact hfree h
  · omega

/-- The identity function, its argument with a variable of its own, is paired with something unknown
and used as a condition. -/
def mispaired : Expr :=
  .not (.app (.var "pair")
    [.letRec ⟨"id", .absent⟩ [⟨"x", .var 2⟩] (.var "x") (.var "id")] .absent)

/-- A pass over it in which the first id to be drawn is 3. -/
def mispairedPass : Pass :=
  (fresh (some ⟨3⟩)).pass .inPlace pairEnv mispaired

/-- The types that do not fit have one id that is free in the environment and one that was drawn.
The quantified id of the environment does not show up. -/
theorem ids_of_pass_mispaired :
    mispairedPass.verdict = .failed (.type ⟨.mismatch, .bool,
      .tuple [.arrow [.var 5] (.var 5), .var 1]⟩) ∧
    mispairedPass.context.supply = some ⟨7⟩ ∧
    (∀ v ∈ mispairedPass.ids,
      v ∈ mispaired.slotVars ∨ v ∈ pairEnv.freeVars ∨ 3 ≤ v ∧ v < 7) ∧
    0 ∉ mispairedPass.ids := by
  have hverdict : mispairedPass.verdict = .failed (.type ⟨.mismatch, .bool,
      .tuple [.arrow [.var 5] (.var 5), .var 1]⟩) := by
    cbv
  have hdrawn : 3 + ((drawn mispairedPass.trace).length : Int) = 7 := by
    cbv
  obtain ⟨hsupply, -, hids, hquantified⟩ :=
    @ids_of_pass (fresh (some ⟨3⟩)) .inPlace pairEnv mispaired 3 rfl (by decide)
      (noWrap_iff.2 (by cbv)) (fun k hk => by cases hverdict.symm.trans hk)
      (fun h => by cases h)
  refine ⟨hverdict, ?_, ?_, ?_⟩
  · rw [← hdrawn]
    exact hsupply
  · rw [← hdrawn]
    exact hids
  · exact hquantified _ List.mem_cons_self 0 (by decide) (by decide) (by decide) (.inl (by decide))

end Context

end LetPoly
