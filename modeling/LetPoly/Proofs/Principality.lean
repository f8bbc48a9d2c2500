import LetPoly.Proofs.Covering
import LetPoly.Proofs.Filling
import LetPoly.Proofs.Starts
import Mathlib.Data.List.GetD
import Mathlib.Logic.Function.Basic

/-!
# Completeness and principality of type inference

If a type can be derived for an expression, then inference finds a type, and the derived one arises
from it; so do the types that the derivation puts in the slots. The derivation may take place in any
environment that arises from the one at hand by a function `θ` from ids to types. Inference learns
more and more about the variables; along a run, the function grows with what is learned, so that it
solves the substitution at every step, and stays the same on all variables that were there before.

## Main definitions

* `Outcome.Ends`: a step that ends well, with a result as described, unless the supply overflows.
* `Follows`: a solution that goes on from an earlier one.
* `Recovers`: a tree whose slots have those of another tree as instances, by a solution and by all
  that go on from it.
* `Recoverable`: inference finds what can be derived for the tree, with one lemma per kind of node.

## Main results

* `Env.Covers.after`, `Env.Covers.rest`: the environment of inference stays general enough.
* `infer_recovers`: inference finds types of which those in the derivation are instances.
* `infer_complete`: the same for the type of the expression alone.
* `Context.infer_principal`: the same for whole passes.
-/

namespace LetPoly

open Outcome

/-! ### Steps that end well -/

namespace Outcome

variable {τ τ' ρ ρ' : Type}

/-- The step ends well, with a result as `Q` describes it, unless the supply overflows. -/
def Ends (o : Outcome τ ρ) (Q : τ → State → ρ → Prop) : Prop :=
  NoWrap o.state.trace → ∃ a st v, o = done a st v ∧ Q a st v

theorem ends_done {Q : τ → State → ρ → Prop} {a : τ} {st : State} {v : ρ} (h : Q a st v) :
    (done a st v).Ends Q :=
  fun _ => ⟨a, st, v, rfl, h⟩

namespace Ends

theorem andThen {o : Outcome τ ρ} {rebuild : τ → τ'} {blame : Failure → Failure}
    {next : τ → State → ρ → Outcome τ' ρ'} {Q : τ → State → ρ → Prop} {R : τ' → State → ρ' → Prop}
    (ho : o.Ends Q) (hk : ∀ a st v, (next a st v).Keeps st)
    (h : ∀ a st v, Q a st v → (next a st v).Ends R) : (o.andThen rebuild blame next).Ends R := by
  intro hw
  obtain ⟨a, st, v, rfl, hQ⟩ := ho (hw.of_isPrefix (o.prefix_andThen rebuild blame hk))
  exact h a st v hQ hw

/-- The same, with the state before the first step known not to have overflowed. -/
theorem andThen_of_keeps {o : Outcome τ ρ} {st : State} {rebuild : τ → τ'}
    {blame : Failure → Failure} {next : τ → State → ρ → Outcome τ' ρ'} {R : τ' → State → ρ' → Prop}
    (ho : o.Keeps st) (hk : ∀ a st v, (next a st v).Keeps st)
    (h : NoWrap st.trace → ∃ Q : τ → State → ρ → Prop, o.Ends Q ∧
      ∀ a st v, Q a st v → (next a st v).Ends R) : (o.andThen rebuild blame next).Ends R := by
  intro hw
  obtain ⟨Q, hQ, hR⟩ := h (hw.of_isPrefix (ho.andThen hk))
  exact hQ.andThen hk hR hw

theorem leaving {o : Outcome Expr Ty} {rebuild : Expr → Expr} {i n : Nat}
    {Q R : Expr → State → Ty → Prop} (ho : o.Ends Q)
    (h : ∀ e st t, Q e st t → ∃ st', st.leave? n = some st' ∧ R (rebuild e) st' t) :
    (o.leaving rebuild i n).Ends R := by
  intro hw
  rw [state_trace_leaving] at hw
  obtain ⟨e, st, t, hdone, hQ⟩ := ho hw
  obtain ⟨st', hl, hR⟩ := h e st t hQ
  exact ⟨_, st', t, leaving_eq_done.2 ⟨e, st, hdone, hl, rfl⟩, hR⟩

theorem run {e : Expr} {st : State} {Q : Expr → State → Ty → Prop} (h : (infer e st).Ends Q) :
    (infer e st).Ends fun e' st' t => Infers e st e' st' t ∧ Q e' st' t := by
  intro hw
  obtain ⟨e', st', t, hdone, hQ⟩ := h hw
  rw [hdone] at hw
  exact ⟨e', st', t, hdone, infers_of_infer e st hdone hw, hQ⟩

theorem runAll {i : Nat} {es : List Expr} {st : State} {Q : List Expr → State → List Ty → Prop}
    (h : (inferAll i es st).Ends Q) :
    (inferAll i es st).Ends fun es' st' ts => InfersAll es st es' st' ts ∧ Q es' st' ts := by
  intro hw
  obtain ⟨es', st', ts, hdone, hQ⟩ := h hw
  rw [hdone] at hw
  exact ⟨es', st', ts, hdone, infersAll_of_inferAll i es st hdone hw, hQ⟩

end Ends

end Outcome

section Steps

variable {st st' : State} {a b : Ty} {tree : Expr} {next : State → Outcome Expr Ty} {n : Nat}

theorem State.unifyThen_of_eq (h : st.unify a b = (st', none)) :
    st.unifyThen tree a b next = next st' := by
  rw [unifyThen, h]

theorem State.leaveThen_of_eq (h : st.leave? n = some st') :
    st.leaveThen tree n next = next st' := by
  rw [leaveThen, h]

/-- Types that a solution makes equal can be made alike, and the solution stays one. -/
theorem State.exists_unify {θ : Int → Ty} (hs : st.subst.Solves θ) (hc : st.subst.Complete)
    (ha : a.Complete) (hb : b.Complete) (heq : a.subst θ = b.subst θ) :
    ∃ st', st.unify a b = (st', none) ∧ st'.subst.Solves θ ∧ st'.subst.Complete := by
  have hholds : Constraint.Holds θ ⟨a.apply st.subst, b.apply st.subst⟩ := by
    rw [Constraint.Holds, hs.subst_apply, hs.subst_apply, heq]
  have hboth : Constraint.Both Ty.Complete ⟨a.apply st.subst, b.apply st.subst⟩ :=
    ⟨ha.apply hc, hb.apply hc⟩
  obtain ⟨hf, hsolved⟩ := solve_of_holds [⟨a.apply st.subst, b.apply st.subst⟩]
    (List.forall_mem_singleton.2 hholds) (List.forall_mem_singleton.2 hboth)
  have hcomplete := (solved_of_solve _ hf).complete (List.forall_mem_singleton.2 hboth)
  simp only [unify, hf]
  exact ⟨_, rfl, Subst.solves_append.2 ⟨hs, hsolved⟩, Subst.complete_append.2 ⟨hc, hcomplete⟩⟩

end Steps

/-! ### Solutions that go on -/

/-- The function `θ'` solves the substitution of the later state, and is `θ` on all ids that were
there before, but for those in the slots of the bindings. -/
structure Follows (bs : List Binding) (st : State) (θ : Int → Ty) (st' : State) (θ' : Int → Ty) :
    Prop where
  solves : st'.subst.Solves θ'
  eq : ∀ v, v < st.supply.next → v ∉ reserve bs → θ' v = θ v

section Follows

variable {b b' : Binding} {bs bs' cs : List Binding} {st st₁ st₂ st' : State}
  {θ θ₁ θ₂ : Int → Ty} {Γ : Env} {P : Int → Prop} {t u a c : Ty}

namespace Follows

theorem refl (hs : st.subst.Solves θ) : Follows bs st θ st θ :=
  ⟨hs, fun _ _ _ => rfl⟩

theorem trans (h₁ : Follows bs st θ st₁ θ₁) (hn : st.supply.next ≤ st₁.supply.next)
    (h₂ : Follows cs st₁ θ₁ st₂ θ₂) : Follows (bs ++ cs) st θ st₂ θ₂ := by
  refine ⟨h₂.solves, fun v hv hres => ?_⟩
  rw [mem_reserve_append, not_or] at hres
  rw [h₂.eq v (Int.lt_of_lt_of_le hv hn) hres.2, h₁.eq v hv hres.1]

/-- The solution gives a type from before the same meaning as the earlier one. -/
theorem subst_eq (h : Follows cs st₁ θ₁ st₂ θ₂) (hs : st₁.subst.Solves θ₁)
    (hp : st₁.subst <+: st₂.subst) (hu : st₁.Confines (· ∉ reserve cs) u) :
    u.subst θ₂ = u.subst θ₁ := by
  obtain ⟨D, hD⟩ := hp
  have hs₂ := h.solves
  rw [← hD, Subst.solves_append] at hs₂
  rw [← hs₂.1.subst_apply, ← hs.subst_apply]
  exact Ty.subst_congr fun v hv => h.eq v (hu.2 v hv).2 (hu.2 v hv).1

/-- The same for a type from work on other bindings. -/
theorem subst_eq_left (h₂ : Follows cs st₁ θ₁ st₂ θ₂) (hr : Ready (bs ++ cs) st)
    (h₁ : Follows bs st θ st₁ θ₁) (hf : Framed cs st₁ st₂ t) (hu : st₁.Confines (Zone bs st) u) :
    u.subst θ₂ = u.subst θ₁ :=
  h₂.subst_eq h₁.solves hf.steps.subst_isPrefix (hu.mono fun _ hv hres => hr.not_zone hres hv)

theorem unify (h : Follows bs st θ st₁ θ₁) (hc : st₁.subst.Complete) (ha : a.Complete)
    (hb : c.Complete) (heq : a.subst θ₁ = c.subst θ₁) :
    ∃ st₂, st₁.unify a c = (st₂, none) ∧ Follows bs st θ st₂ θ₁ ∧ st₂.subst.Complete := by
  obtain ⟨st₂, hu, hs, hcomplete⟩ := State.exists_unify h.solves hc ha hb heq
  exact ⟨st₂, hu, ⟨hs, h.eq⟩, hcomplete⟩

end Follows

/-! ### Slots along a run -/

/-- The function `φ` is `θ` on the variables of the zone, as far as they have been handed out. -/
def Agrees (bs : List Binding) (st st' : State) (θ φ : Int → Ty) : Prop :=
  ∀ v, Zone bs st v → v < st'.supply.next → φ v = θ v

/-- Every function that goes on from `θ` turns the slots of the tree `e` into those of `a`. -/
def Recovers (bs : List Binding) (st st' : State) (θ : Int → Ty) (e a : Expr) : Prop :=
  ∀ φ, Agrees bs st st' θ φ → e.mapSlots (·.subst φ) = a

/-- The same for a list of trees. -/
def RecoversAll (bs : List Binding) (st st' : State) (θ : Int → Ty) (es as : List Expr) : Prop :=
  ∀ φ, Agrees bs st st' θ φ → Expr.mapSlotsAll (·.subst φ) es = as

namespace Agrees

variable {φ : Int → Ty}

theorem left (h : Agrees (bs ++ cs) st st₂ θ₂ φ) (hr : Ready (bs ++ cs) st)
    (h₂ : Follows cs st₁ θ₁ st₂ θ₂) (hn : st₁.supply.next ≤ st₂.supply.next) :
    Agrees bs st st₁ θ₁ φ :=
  fun v hz hv => (h v hz.append_left (Int.lt_of_lt_of_le hv hn)).trans
    (h₂.eq v hv fun hres => hr.not_zone hres hz)

theorem right (h : Agrees (bs ++ cs) st st₂ θ φ) (hr : st.Regular)
    (he : st.Extends (Zone bs st) st₁) : Agrees cs st₁ st₂ θ φ :=
  fun v hz => h v (hz.after hr he)

theorem unify (h : Agrees bs st st₂ θ φ) (hu : st₁.unify a c = (st₂, none)) :
    Agrees bs st st₁ θ φ := by
  obtain ⟨-, -, -, -, hsupply⟩ := State.unify_eq hu
  rwa [Agrees, hsupply] at h

/-- What has been resolved has the meaning that it had before. -/
theorem subst_apply (h : Agrees bs st st' θ φ) (hs : st'.subst.Solves θ)
    (hu : st'.Confines (Zone bs st) u) : (u.apply st'.subst).subst φ = u.subst θ :=
  (Ty.subst_congr fun v hv => h v (hu.2 v hv).1 (hu.2 v hv).2).trans (hs.subst_apply u)

theorem mapSlot_resolve (h : Agrees bs st st' θ φ) (hs : st'.subst.Solves θ)
    (hc : st'.subst.Complete) (hb : st'.Confines (Zone bs st) b.slot) (hname : b.name = b'.name)
    (hslot : b.slot.subst θ = b'.slot) : (st'.resolve b).mapSlot (·.subst φ) = b' := by
  have hcomplete : (st'.resolve b).slot.Complete := hb.1.apply hc
  rw [Binding.mapSlot, hcomplete.isAbsent_eq_false]
  exact congrArg₂ Binding.mk hname ((h.subst_apply hs hb).trans hslot)

/-- The same for several bindings. -/
theorem map_resolve (h : Agrees bs st st' θ φ) (hs : st'.subst.Solves θ)
    (hc : st'.subst.Complete) {ds as : List Binding}
    (hds : ∀ d ∈ ds, st'.Confines (Zone bs st) d.slot)
    (hnames : ds.map (·.name) = as.map (·.name))
    (hslots : (ds.map (·.slot)).map (·.subst θ) = as.map (·.slot)) :
    (ds.map st'.resolve).map (·.mapSlot (·.subst φ)) = as := by
  induction ds generalizing as with
  | nil => exact (List.map_eq_nil_iff.1 hnames.symm).symm
  | cons d ds ih =>
    obtain _ | ⟨a, as⟩ := as
    · cases hnames
    · obtain ⟨hd, hds⟩ := List.forall_mem_cons.1 hds
      obtain ⟨hname, hnames⟩ := List.cons.inj hnames
      obtain ⟨hslot, hslots⟩ := List.cons.inj hslots
      rw [List.map_cons, List.map_cons, h.mapSlot_resolve hs hc hd hname hslot,
        ih hds hnames hslots]

end Agrees

/-- A last step that makes two types alike ends well if the solution makes them equal. -/
theorem Follows.constrain (h : Follows bs st θ st₁ θ₁) (hc : st₁.subst.Complete)
    (ha : a.Complete) (hb : c.Complete) (heq : a.subst θ₁ = c.subst θ₁) (ht : u.subst θ₁ = t)
    {tree goal : Expr} (hrec : Recovers bs st st₁ θ₁ tree goal) :
    (st₁.constrain tree a c u).Ends fun e' st' s =>
      ∃ θ', Follows bs st θ st' θ' ∧ s.subst θ' = t ∧ Recovers bs st st' θ' e' goal := by
  obtain ⟨st', hu, h', -⟩ := h.unify hc ha hb heq
  rw [State.constrain_eq_done.2 ⟨rfl, hu, rfl⟩]
  exact ends_done ⟨θ₁, h', ht, fun φ hφ => hrec φ (hφ.unify hu)⟩

/-- What covered an environment before some steps still covers it after them. -/
theorem Env.Covers.after (hc : st.env.Covers θ Γ) (hr : Ready bs st) (he : st.Extends P st₁)
    (h : Follows bs st θ st₁ θ₁) : st₁.env.Covers θ₁ Γ := by
  have hcongr : st.env.Covers θ₁ Γ := hc.congr fun v hv =>
    h.eq v (hr.regular.freeVars_lt hv) fun hres => (hr.untouched v hres).free hv
  have hdom : ∀ v, st₁.env.Bounds v → ∀ q ∈ st₁.subst, q.var ≠ v :=
    fun v hv => (he.regular.bounds v hv).2.2
  rw [← Env.covers_apply_iff h.solves
      (fun q hq hb => hdom _ (he.bounds_iff.2 hb) q hq rfl)
      fun v hv hb => he.regular.not_bounds_of_live ((he.live_iff hr.regular).2 hv)
        (he.bounds_iff.2 hb), ← he.env_apply] at hcongr
  exact (Env.covers_apply_iff h.solves (fun q hq hb => hdom _ hb q hq rfl)
    fun v hv => he.regular.not_bounds_of_live hv).1 hcongr

/-- A fresh variable can be given any type. -/
theorem State.Regular.follows_freshVar (hr : st.Regular) (hs : st.subst.Solves θ) (t : Ty) :
    Follows [] st θ st.freshVar.2 (Function.update θ st.supply.next t) :=
  ⟨hs.congr (hr.below.mono fun _ hw => Function.update_of_ne (Int.ne_of_lt hw) _ _),
    fun _ hw _ => Function.update_of_ne (Int.ne_of_lt hw) _ _⟩

/-- A binding can be given a type of which the one that a derivation gives it is an instance. -/
theorem Declares.follows (h : Declares st b b' st₁) (hr : Ready [b] st) (hs : st.subst.Solves θ)
    (hb : b.slot ≠ .absent → b.slot.vars = [] → b.slot = t) :
    ∃ θ₁, Follows [b] st θ st₁ θ₁ ∧ b'.slot.subst θ₁ = t := by
  cases h with
  | given hslot =>
    rcases hr.plain b List.mem_cons_self with habs | ⟨hcomplete, hnil⟩ | ⟨v, hv⟩
    · rw [habs] at hslot
      cases hslot
    · have hne : b.slot ≠ .absent := fun e => Ty.not_complete_absent (e ▸ hcomplete)
      refine ⟨θ, .refl hs, ?_⟩
      rw [Ty.subst_eq_self fun w hw => absurd hw (hnil ▸ List.not_mem_nil), hb hne hnil]
    · have hmem : v ∈ reserve [b] := List.mem_flatMap.2
        ⟨b, List.mem_cons_self, hv ▸ Ty.mem_vars_var.2 rfl⟩
      refine ⟨Function.update θ v t, ⟨?_, fun w _ hw => ?_⟩, ?_⟩
      · exact hs.congr ((hr.untouched v hmem).subst.mono fun w hw => Function.update_of_ne hw _ _)
      · exact Function.update_of_ne (fun e : w = v => hw (e ▸ hmem)) _ _
      · rw [hv, Ty.subst_var, Function.update_self]
  | fresh _ _ =>
    have hfresh := hr.regular.follows_freshVar hs t
    exact ⟨_, ⟨hfresh.solves, fun w hw _ => hfresh.eq w hw List.not_mem_nil⟩,
      Function.update_self _ _ _⟩

/-- The same for bindings that come in scope one after the other. -/
theorem Enters.follows (h : Enters st bs bs' st') (hr : Ready (bs ++ cs) st)
    (hs : st.subst.Solves θ) {ts : List Ty}
    (hts : List.Forall₂ (fun b s => b.slot ≠ .absent → b.slot.vars = [] → b.slot = s) bs ts) :
    ∃ θ', Follows bs st θ st' θ' ∧ (bs'.map (·.slot)).map (·.subst θ') = ts := by
  induction h generalizing θ ts with
  | nil =>
    cases hts
    exact ⟨θ, .refl hs, rfl⟩
  | @cons st st₁ st₂ b b' bs bs' hb hbs ih =>
    obtain _ | ⟨hslot, hts⟩ := hts
    have hrb : Ready ([b] ++ (bs ++ cs)) st := hr
    have hf := hb.framed hrb.left
    obtain ⟨θ₁, h₁, heq₁⟩ := hb.follows hrb.left hs hslot
    obtain ⟨θ₂, h₂, heq₂⟩ := ih (hrb.enter hb) h₁.solves hts
    have h₂' : Follows bs st₁ θ₁ st₂ θ₂ := ⟨h₂.solves, h₂.eq⟩
    have hsubst : st₂.subst = st₁.subst := (hbs.entered (hrb.enter hb)).subst_eq
    have hkeep : b'.slot.subst θ₂ = b'.slot.subst θ₁ := by
      refine h₂'.subst_eq h₁.solves (hsubst.symm ▸ List.prefix_refl _) ?_
      exact hf.confines.mono fun v hv hres => hrb.not_zone (mem_reserve_append.2 (.inl hres)) hv
    refine ⟨θ₂, h₁.trans hf.steps.next_le h₂', ?_⟩
    rw [List.map_cons, List.map_cons, hkeep, heq₁, heq₂]

/-- In the scope of bindings with their types as they are. -/
theorem Env.Covers.entered (hc : st.env.Covers θ Γ) (hr : Ready bs st)
    (hin : Entered bs cs st bs' st₁) (h : Follows bs st θ st₁ θ₁) :
    st₁.env.Covers θ₁ (Γ.extend .mono (bs'.map (·.name))
      ((bs'.map (·.slot)).map (·.subst θ₁))) := by
  rw [hin.env_eq]
  exact Env.Covers.extend_mono (hc.congr fun v hv => h.eq v (hr.regular.freeVars_lt hv)
    fun hres => (hr.untouched v hres).free hv) _ _

/-- In the scope of bindings with generalized types. -/
theorem Env.Covers.rest (hc : st.env.Covers θ Γ) (hr : Ready (bs ++ cs) st)
    (he : st.Extends (Zone bs st) st₁) (hslots : ∀ b ∈ bs', st₁.Confines (Zone bs st) b.slot)
    (h : Follows bs st θ st₁ θ₁) :
    ((bs'.map st₁.resolve).foldl State.bind st₁.refresh).env.Covers θ₁
      (Γ.extend Γ.generalize (bs'.map (·.name)) ((bs'.map (·.slot)).map (·.subst θ₁))) := by
  have hrefresh := he.trans (he.regular.refresh (P := Zone bs st)).1
  have hbase : st₁.refresh.env.Covers θ₁ Γ := hc.after hr.left hrefresh ⟨h.solves, h.eq⟩
  have hnames : (bs'.map st₁.resolve).map (·.name) = bs'.map (·.name) := by
    rw [List.map_map]
    rfl
  have htypes : ((bs'.map st₁.resolve).map (·.slot)).map (·.subst θ₁) =
      (bs'.map (·.slot)).map (·.subst θ₁) := by
    simp only [List.map_map]
    exact List.map_congr_left fun b _ => h.solves.subst_apply b.slot
  rw [(hr.rest he hslots).env_eq, hnames, ← htypes]
  exact hbase.extend_generalize _ _

/-- A solution for the fresh instance of a scheme that makes it any instance. -/
theorem State.exists_instance {σ : Scheme} (hlow : Supply.first ≤ st.supply.next)
    (hbelow : st.subst.Within (· < st.supply.next)) (hlt : ∀ v ∈ σ.bound.ids, v < st.supply.next)
    (hbody : σ.body.Within (· < st.supply.next))
    (hroom : ∀ v ∈ (st.supply.freshList σ.bound.size).1, v < Supply.last)
    (hs : st.subst.Solves θ) (r : Int → Ty) :
    ∃ θ₁, Follows [] st θ (st.instantiate σ).2 θ₁ ∧ (st.instantiate σ).1.subst θ₁ = σ.inst r θ := by
  refine ⟨fun w => if st.supply.next ≤ w then
    r (σ.bound.ids.getD (w - st.supply.next).toNat 0) else θ w, ⟨?_, fun w hw _ => ?_⟩, ?_⟩
  · exact hs.congr (hbelow.mono fun w hw => if_neg (Int.not_le.2 hw))
  · exact if_neg (Int.not_le.2 hw)
  · rw [(State.instantiate_eq hlow hlt hroom).1, Scheme.inst, Scheme.inst, Ty.subst_subst]
    refine Ty.subst_congr fun v hv => ?_
    by_cases hb : v ∈ σ.bound
    · have hidx : σ.bound.ids.idxOf v < σ.bound.ids.length := List.idxOf_lt_length_of_mem hb
      have hoff : (st.supply.next + σ.bound.ids.idxOf v - st.supply.next).toNat =
          σ.bound.ids.idxOf v := by
        omega
      rw [if_pos hb, if_pos hb, Ty.subst_var, if_pos (by omega), hoff,
        List.getD_eq_getElem _ _ hidx, List.getElem_idxOf hidx]
    · rw [if_neg hb, if_neg hb, Ty.subst_var, if_neg (Int.not_le.2 (hbody v hv))]

theorem State.Regular.exists_follows (hr : st.Regular) {x : String} {σ : Scheme}
    (hx : st.env.lookup x = some σ)
    (hroom : ∀ v ∈ (st.supply.freshList σ.bound.size).1, v < Supply.last)
    (hs : st.subst.Solves θ) (r : Int → Ty) :
    ∃ θ₁, Follows [] st θ (st.instantiate σ).2 θ₁ ∧ (st.instantiate σ).1.subst θ₁ = σ.inst r θ :=
  have hmem := Env.mem_of_lookup hx
  State.exists_instance hr.low hr.below (fun v hv => (hr.bounds v ⟨_, hmem, hv⟩).1)
    (hr.bodies _ hmem).2 hroom hs r

/-- Work in the scope of some bindings, seen from outside: the bindings keep their types. -/
theorem Follows.inner {ds : List Binding} (h₁ : Follows bs st θ st₁ θ₁) (hr : Ready (bs ++ cs) st)
    (hin : Entered bs ds st bs' st₁) (hf : Framed cs st₁ st₂ t) (h₂ : Follows cs st₁ θ₁ st₂ θ₂) :
    ∃ st₃, st₂.leave? bs'.length = some st₃ ∧ Follows (bs ++ cs) st θ st₃ θ₂ ∧
      (bs'.map (·.slot)).map (·.subst θ₂) = (bs'.map (·.slot)).map (·.subst θ₁) := by
  obtain ⟨xs, hlen, henv⟩ := hin.exists_append
  have hroom : bs'.length ≤ st₁.env.length := by
    rw [henv, List.length_append, hlen]
    exact Nat.le_add_right _ _
  obtain ⟨st₃, hl⟩ := hf.steps.exists_leave hroom
  have h := h₁.trans hin.next_le h₂
  refine ⟨st₃, hl, ⟨(State.leave?_same hl).1 ▸ h.solves, h.eq⟩, ?_⟩
  refine List.map_congr_left (List.forall_mem_map.2 fun b hb => ?_)
  exact h₂.subst_eq h₁.solves hf.steps.subst_isPrefix
    ((hin.slots b hb).mono fun v hv hres => hr.not_zone hres hv)

/-- The body of a binding expression, seen from outside. -/
theorem Follows.rest {e a tree : Expr} {rebuild : Expr → Expr} {i : Nat}
    (h : Follows bs st θ st₁ θ₁) (hr : Ready (bs ++ e.bindings) st)
    (he : st.Extends (Zone bs st) st₁) (hslots : ∀ b ∈ bs', st₁.Confines (Zone bs st) b.slot)
    (hbody : (infer e ((bs'.map st₁.resolve).foldl State.bind st₁.refresh)).Ends fun e' st' t =>
      ∃ θ', Follows e.bindings ((bs'.map st₁.resolve).foldl State.bind st₁.refresh) θ₁ st' θ' ∧
        t.subst θ' = u ∧
        Recovers e.bindings ((bs'.map st₁.resolve).foldl State.bind st₁.refresh) st' θ' e' a)
    (hnode : ∀ φ e', Agrees bs st st₁ θ₁ φ → e'.mapSlots (·.subst φ) = a →
      (rebuild e').mapSlots (·.subst φ) = tree) :
    ((infer e ((bs'.map st₁.resolve).foldl State.bind st₁.refresh)).leaving rebuild i
      bs'.length).Ends fun e' st' t => ∃ θ', Follows (bs ++ e.bindings) st θ st' θ' ∧
        t.subst θ' = u ∧ Recovers (bs ++ e.bindings) st st' θ' e' tree := by
  have hgen := hr.rest he hslots
  refine hbody.run.leaving ?_
  rintro e' st₂ t ⟨hrun, θ₂, h₂, ht, hrec⟩
  obtain ⟨xs, hlen, henv⟩ := hgen.exists_append
  have hroom : bs'.length ≤ ((bs'.map st₁.resolve).foldl State.bind st₁.refresh).env.length := by
    rw [henv, List.length_append, hlen, List.length_map]
    exact Nat.le_add_right _ _
  have hsteps := (Infers.framed e hrun hgen.ready).steps
  obtain ⟨st', hl⟩ := hsteps.exists_leave hroom
  obtain ⟨hsubst, hsupply⟩ := State.leave?_same hl
  have h₂' : Follows e.bindings st₁ θ₁ st' θ₂ :=
    ⟨hsubst ▸ h₂.solves, fun v hv hres => h₂.eq v (hgen.supply_eq ▸ hv) hres⟩
  have hnext : st₁.supply.next ≤ st'.supply.next := by
    rw [hsupply]
    exact hgen.supply_eq ▸ hsteps.next_le
  refine ⟨st', hl, θ₂, h.trans he.next_le h₂', ht, fun φ hφ => ?_⟩
  refine hnode φ e' (hφ.left hr h₂' hnext) (hrec φ fun v hz hv => ?_)
  exact hφ v ((hgen.zone hz).after hr.regular (he.trans (he.regular.refresh (P := Zone bs st)).1))
    (hsupply.symm ▸ hv)

end Follows

/-! ### Runs -/

/-- The slots of filled bindings. -/
theorem Binding.map_slot_of_filled {kind : SlotKind} {bs : List Binding} {ts : List Ty}
    (h : List.Forall₂ (fun b s => SlotRule.filled kind b.slot s) bs ts) : bs.map (·.slot) = ts := by
  induction h with
  | nil => rfl
  | cons hb _ ih => rw [List.map_cons, hb, ih]

/-- What the slots of some bindings declare is what fills them. -/
theorem Binding.forall₂_slot {kind : SlotKind} {bs as : List Binding} (hkind : kind ≠ .application)
    (h : List.Forall₂ (Binding.Fills .declared kind) bs as) :
    List.Forall₂ (fun b s => b.slot ≠ .absent → b.slot.vars = [] → b.slot = s) bs
      (as.map (·.slot)) :=
  List.forall₂_map_right_iff.2 (h.imp fun _ _ hb => hb.slot hkind)

/-- Inference recovers whatever can be derived for the tree with its slots filled: it finds a type
of which the derived type is an instance, and types for the slots of which those in the derivation
are instances, all in the same way. -/
def Recoverable (e : Expr) : Prop :=
  ∀ ⦃st : State⦄ ⦃θ : Int → Ty⦄ ⦃Γ : Env⦄ ⦃a : Expr⦄ ⦃T : Ty⦄, Ready e.bindings st →
    st.subst.Solves θ → st.env.Covers θ Γ → e.Fills .declared a → HasType .filled Γ a T →
    (infer e st).Ends fun e' st' t => ∃ θ', Follows e.bindings st θ st' θ' ∧ t.subst θ' = T ∧
      Recovers e.bindings st st' θ' e' a

/-- Inference recovers what can be derived for the trees of a list, one after the other. -/
def RecoverableAll (es : List Expr) : Prop :=
  ∀ (i : Nat) ⦃st : State⦄ ⦃θ : Int → Ty⦄ ⦃Γ : Env⦄ ⦃as : List Expr⦄ ⦃Ts : List Ty⦄,
    Ready (Expr.bindingsAll es) st → st.subst.Solves θ → st.env.Covers θ Γ →
    List.Forall₂ (Expr.Fills .declared) es as → HasTypeAll .filled Γ as Ts →
    (inferAll i es st).Ends fun es' st' ts =>
      ∃ θ', Follows (Expr.bindingsAll es) st θ st' θ' ∧ ts.map (·.subst θ') = Ts ∧
        RecoversAll (Expr.bindingsAll es) st st' θ' es' as

section Cases

variable {c e e₁ e₂ l r v body rest : Expr}

theorem recoverable_absent : Recoverable .absent
  | _, _, _, _, _, _, _, _, .absent, h => nomatch h

theorem recoverable_foreign {kind : String} : Recoverable (.foreign kind)
  | _, _, _, _, _, _, _, _, .foreign, h => nomatch h

theorem recoverable_unit : Recoverable .unit
  | _, θ, _, _, _, _, hs, _, .unit, .unit =>
    ends_done ⟨θ, .refl hs, rfl, fun _ _ => rfl⟩

theorem recoverable_bool {value : Bool} : Recoverable (.bool value)
  | _, θ, _, _, _, _, hs, _, .bool, .bool =>
    ends_done ⟨θ, .refl hs, rfl, fun _ _ => rfl⟩

theorem recoverable_int {value : Int} : Recoverable (.int value)
  | _, θ, _, _, _, _, hs, _, .int, .int =>
    ends_done ⟨θ, .refl hs, rfl, fun _ _ => rfl⟩

theorem recoverable_var {x : String} : Recoverable (.var x)
  | st, θ, Γ, _, _, hready, hs, hc, .var, .var hx ht => by
    obtain ⟨σ, hσ, hcovers⟩ := hc.found x _ hx
    obtain ⟨r, rfl⟩ := hcovers _ ht
    have hinfer : infer (.var x) st = done (.var x) (st.instantiate σ).2 (st.instantiate σ).1 := by
      rw [infer, hσ]
    rw [hinfer]
    intro hw
    obtain ⟨θ₁, hθ, ht⟩ := hready.regular.exists_follows hσ
      (fun v hv => hw v (List.mem_append_right _ (List.mem_map_of_mem hv))) hs r
    exact ⟨_, _, _, rfl, θ₁, hθ, ht, fun _ _ => rfl⟩

/-- An operator with one operand, which has the type of the result. -/
theorem Recoverable.operand {st : State} {θ : Int → Ty} {Γ : Env} {a : Expr} {name : String}
    {node : Expr → Expr} (ih : Recoverable e) (hready : Ready e.bindings st)
    (hs : st.subst.Solves θ) (hc : st.env.Covers θ Γ) (ha : e.Fills .declared a)
    (he : HasType .filled Γ a (.const name))
    (hnode : ∀ (f : Ty → Ty) (e' : Expr), (node e').mapSlots f = node (e'.mapSlots f)) :
    ((infer e st).andThen node (.under 0) fun e' st₁ t =>
      st₁.constrain (node e') (.const name) t (.const name)).Ends fun e' st' t =>
        ∃ θ', Follows e.bindings st θ st' θ' ∧ t.subst θ' = .const name ∧
          Recovers e.bindings st st' θ' e' (node a) := by
  refine (ih hready hs hc ha he).run.andThen (fun _ st t => keeps_constrain st _ _ t _) ?_
  rintro e' st₁ t ⟨hrun, θ₁, hθ, ht, hrec⟩
  have hf := Infers.framed e hrun hready
  refine hθ.constrain hf.steps.regular.complete (Ty.complete_const _) hf.confines.1 ht.symm rfl
    fun φ hφ => ?_
  rw [hnode, hrec φ hφ]

theorem recoverable_not (ih : Recoverable e) : Recoverable (.not e)
  | st, θ, Γ, _, _, hready, hs, hc, .not ha, .not he => by
    rw [infer]
    exact ih.operand hready hs hc ha he fun _ _ => rfl

theorem recoverable_neg (ih : Recoverable e) : Recoverable (.neg e)
  | st, θ, Γ, _, _, hready, hs, hc, .neg ha, .neg he => by
    rw [infer]
    exact ih.operand hready hs hc ha he fun _ _ => rfl

theorem recoverable_arith {op : ArithOp} (ihl : Recoverable l) (ihr : Recoverable r) :
    Recoverable (.arith op l r)
  | st, θ, Γ, _, _, hready, hs, hc, .arith hal har, .arith hl hr => by
    have hready : Ready (l.bindings ++ r.bindings) st := hready
    rw [infer]
    refine (ihl hready.left hs hc hal hl).run.andThen (fun _ st t₁ =>
      (infer_keeps r st).andThen fun _ st t₂ => keeps_unifyThen st _ t₁ t₂ fun st =>
        keeps_constrain st _ t₁ _ _) ?_
    rintro l' st₁ t₁ ⟨hrun₁, θ₁, hθ₁, ht₁, hrec₁⟩
    have h₁ := Infers.framed l hrun₁ hready.left
    have hready₂ := hready.right h₁.steps
    refine (ihr hready₂ hθ₁.solves (hc.after hready.left h₁.steps hθ₁) har
      hr).run.andThen
      (fun _ st t₂ => keeps_unifyThen st _ t₁ t₂ fun st => keeps_constrain st _ t₁ _ _) ?_
    rintro r' st₂ t₂ ⟨hrun₂, θ₂, hθ₂, ht₂, hrec₂⟩
    have h₂ := Infers.framed r hrun₂ hready₂
    have ht₁' := (hθ₂.subst_eq_left hready hθ₁ h₂ h₁.confines).trans ht₁
    obtain ⟨st₃, hu, hθ, hcomplete⟩ := (hθ₁.trans h₁.steps.next_le hθ₂).unify
      h₂.steps.regular.complete h₁.confines.1 h₂.confines.1 (ht₁'.trans ht₂.symm)
    rw [State.unifyThen_of_eq hu]
    refine hθ.constrain hcomplete h₁.confines.1 (Ty.complete_const _) ht₁' rfl fun φ hφ => ?_
    have hφ := hφ.unify hu
    exact congrArg₂ (Expr.arith op) (hrec₁ φ (hφ.left hready hθ₂ h₂.steps.next_le))
      (hrec₂ φ (hφ.right hready.regular h₁.steps))

theorem recoverable_eq (ihl : Recoverable l) (ihr : Recoverable r) : Recoverable (.eq l r)
  | st, θ, Γ, _, _, hready, hs, hc, .eq hal har, .eq hl hr => by
    have hready : Ready (l.bindings ++ r.bindings) st := hready
    rw [infer]
    refine (ihl hready.left hs hc hal hl).run.andThen (fun _ st t₁ =>
      (infer_keeps r st).andThen fun _ st t₂ => keeps_constrain st _ t₁ t₂ _) ?_
    rintro l' st₁ t₁ ⟨hrun₁, θ₁, hθ₁, ht₁, hrec₁⟩
    have h₁ := Infers.framed l hrun₁ hready.left
    have hready₂ := hready.right h₁.steps
    refine (ihr hready₂ hθ₁.solves (hc.after hready.left h₁.steps hθ₁) har
      hr).run.andThen (fun _ st t₂ => keeps_constrain st _ t₁ t₂ _) ?_
    rintro r' st₂ t₂ ⟨hrun₂, θ₂, hθ₂, ht₂, hrec₂⟩
    have h₂ := Infers.framed r hrun₂ hready₂
    have ht₁' := (hθ₂.subst_eq_left hready hθ₁ h₂ h₁.confines).trans ht₁
    refine (hθ₁.trans h₁.steps.next_le hθ₂).constrain h₂.steps.regular.complete h₁.confines.1
      h₂.confines.1 (ht₁'.trans ht₂.symm) rfl fun φ hφ => ?_
    exact congrArg₂ Expr.eq (hrec₁ φ (hφ.left hready hθ₂ h₂.steps.next_le))
      (hrec₂ φ (hφ.right hready.regular h₁.steps))

theorem recoverable_le (ihl : Recoverable l) (ihr : Recoverable r) : Recoverable (.le l r)
  | st, θ, Γ, _, _, hready, hs, hc, .le hal har, .le hl hr => by
    have hready : Ready (l.bindings ++ r.bindings) st := hready
    rw [infer]
    refine (ihl hready.left hs hc hal hl).run.andThen (fun _ st t₁ =>
      keeps_unifyThen st _ _ t₁ fun st => (infer_keeps r st).andThen fun _ st t₂ =>
        keeps_constrain st _ _ t₂ _) ?_
    rintro l' st₁ t₁ ⟨hrun₁, θ₁, hθ₁, ht₁, hrec₁⟩
    have h₁ := Infers.framed l hrun₁ hready.left
    obtain ⟨st₂, hu, hθ₁, -⟩ := hθ₁.unify (a := .int) h₁.steps.regular.complete
      (Ty.complete_const _) h₁.confines.1 ht₁.symm
    have h₁' := Framed.unify hready.left h₁.steps (.const "int") h₁.confines hu (.const "int")
    have hready₂ := hready.right h₁'.steps
    rw [State.unifyThen_of_eq hu]
    refine (ihr hready₂ hθ₁.solves (hc.after hready.left h₁'.steps hθ₁) har
      hr).run.andThen (fun _ st t₂ => keeps_constrain st _ _ t₂ _) ?_
    rintro r' st₃ t₂ ⟨hrun₂, θ₂, hθ₂, ht₂, hrec₂⟩
    have h₂ := Infers.framed r hrun₂ hready₂
    refine (hθ₁.trans h₁'.steps.next_le hθ₂).constrain h₂.steps.regular.complete
      (Ty.complete_const _) h₂.confines.1 ht₂.symm rfl fun φ hφ => ?_
    exact congrArg₂ Expr.le (hrec₁ φ ((hφ.left hready hθ₂ h₂.steps.next_le).unify hu))
      (hrec₂ φ (hφ.right hready.regular h₁'.steps))

theorem recoverable_ite (ihc : Recoverable c) (ih₁ : Recoverable e₁) (ih₂ : Recoverable e₂) :
    Recoverable (.ite c e₁ e₂)
  | st, θ, Γ, _, _, hready, hs, hcov, .ite hac ha₁ ha₂, .ite hc h₁ h₂ => by
    have hready : Ready (c.bindings ++ e₁.bindings ++ e₂.bindings) st := hready
    rw [infer]
    refine (ihc hready.left.left hs hcov hac hc).run.andThen (fun _ st t₁ =>
      keeps_unifyThen st _ _ t₁ fun st => (infer_keeps e₁ st).andThen fun _ st t₂ =>
        (infer_keeps e₂ st).andThen fun _ st t₃ => keeps_unifyThen st _ t₂ t₃ fun _ =>
          List.prefix_refl _) ?_
    rintro c' st₁ t₁ ⟨hrun, θ₁, hθ₁, ht₁, hrec⟩
    have hf := Infers.framed c hrun hready.left.left
    obtain ⟨st₂, hu, hθ₁, -⟩ := hθ₁.unify (a := .bool) hf.steps.regular.complete
      (Ty.complete_const _) hf.confines.1 ht₁.symm
    have hcond := Framed.unify hready.left.left hf.steps (.const "bool") hf.confines hu
      (.const "bool")
    have hready₁ := hready.left.right hcond.steps
    rw [State.unifyThen_of_eq hu]
    refine (ih₁ hready₁ hθ₁.solves (hcov.after hready.left.left hcond.steps hθ₁)
      ha₁ h₁).run.andThen (fun _ st t₂ => (infer_keeps e₂ st).andThen fun _ st t₃ =>
        keeps_unifyThen st _ t₂ t₃ fun _ => List.prefix_refl _) ?_
    rintro e₁' st₃ t₂ ⟨hrun₁, θ₂, hθ₂, ht₂, hrec₁⟩
    have hf₁ := Infers.framed e₁ hrun₁ hready₁
    have hyes := Framed.after hready.regular hcond.steps hf₁
    have hθ₁₂ := hθ₁.trans hcond.steps.next_le hθ₂
    have hready₂ := hready.right hyes.steps
    refine (ih₂ hready₂ hθ₂.solves (hcov.after hready.left hyes.steps hθ₁₂)
      ha₂ h₂).run.andThen (fun _ st t₃ => keeps_unifyThen st _ t₂ t₃ fun _ =>
        List.prefix_refl _) ?_
    rintro e₂' st₄ t₃ ⟨hrun₂, θ₃, hθ₃, ht₃, hrec₂⟩
    have hf₂ := Infers.framed e₂ hrun₂ hready₂
    have ht₂' := (hθ₃.subst_eq_left hready hθ₁₂ hf₂ hyes.confines).trans ht₂
    obtain ⟨st', hu', hθ, -⟩ := (hθ₁₂.trans hyes.steps.next_le hθ₃).unify
      hf₂.steps.regular.complete hf₁.confines.1 hf₂.confines.1 (ht₂'.trans ht₃.symm)
    rw [State.unifyThen_of_eq hu']
    refine ends_done ⟨θ₃, hθ, (hθ.solves.subst_apply t₂).trans ht₂', fun φ hφ => ?_⟩
    have hφ := hφ.unify hu'
    have hφ₂ := hφ.left hready hθ₃ hf₂.steps.next_le
    have hφ₁ := (hφ₂.left hready.left hθ₂ hf₁.steps.next_le).unify hu
    rw [Expr.mapSlots, hrec φ hφ₁, hrec₁ φ (hφ₂.right hready.regular hcond.steps),
      hrec₂ φ (hφ.right hready.regular hyes.steps)]

/-- The type of the value is generalized only after the slot of the binding has been made alike to
it, so the body is read under a scheme that covers the one in the derivation. -/
theorem recoverable_letIn {b : Binding} (ihv : Recoverable v) (ihe : Recoverable e) :
    Recoverable (.letIn b v e)
  | st, θ, Γ, _, _, hready, hs, hc, .letIn hab hav hae, .letIn hv hb he => by
    have hready : Ready ([b] ++ v.bindings ++ e.bindings) st := hready
    rcases hp : st.declare b with ⟨b', st₁⟩
    simp only [infer, hp]
    refine Ends.andThen_of_keeps (infer_keeps v st₁) (fun _ st t =>
      keeps_unifyThen st _ _ t fun st =>
        (Keeps.of_refresh [st.resolve b'] (infer_keeps e _)).leaving _ 1 1) fun hw => ?_
    have hdecl := declares_of_declare st b (by rwa [hp])
    rw [hp] at hdecl
    have hd := hdecl.framed hready.left.left
    obtain ⟨θ₁, hθ₁, hslot₁⟩ := hdecl.follows hready.left.left hs (hab.slot (by decide))
    have hready₁ := hready.left.right hd.steps
    refine ⟨_, (ihv hready₁ hθ₁.solves (hc.after hready.left.left hd.steps hθ₁)
      hav hv).run, ?_⟩
    rintro v' st₂ t₁ ⟨hrun, θ₂, hθ₂, ht₁, hrec⟩
    have hval := Infers.framed v hrun hready₁
    have hslot₂ := (hθ₂.subst_eq_left hready.left hθ₁ hval hd.confines).trans hslot₁
    obtain ⟨st₃, hu, hθ₃, -⟩ := (hθ₁.trans hd.steps.next_le hθ₂).unify hval.steps.regular.complete
      hd.confines.1 hval.confines.1 (hslot₂.trans (hb.trans ht₁.symm))
    have hf := hdecl.framed_unify hready.left hval hu
    have hgen := hready.rest hf.steps hf.slots
    have hcover := hc.rest hready hf.steps hf.slots hθ₃
    have hname := hdecl.same_env.2.2.trans hab.name.symm
    rw [State.unifyThen_of_eq hu]
    refine hθ₃.rest hready hf.steps hf.slots
      (ihe hgen.ready (hgen.subst_eq ▸ hθ₃.solves) hcover hae ?_) fun φ e' hφ heq => ?_
    · change HasType _ (Γ.push b'.name (Γ.generalize (b'.slot.subst θ₂))) _ _
      rw [hslot₂, hb, hname]
      exact he
    · have hφ₂ := (hφ.unify hu).right hready.regular hd.steps
      change Expr.letIn _ _ _ = _
      exact congr (congrArg₂ Expr.letIn (hφ.mapSlot_resolve hθ₃.solves hf.steps.regular.complete
        hf.confines hname hslot₂) (hrec φ hφ₂)) heq

/-- Inside of its own body a function is not polymorphic: the body is read under the types in the
slots, and only the rest under the scheme. -/
theorem recoverable_letRec {fn : Binding} {args : List Binding} (ihbody : Recoverable body)
    (ihrest : Recoverable rest) : Recoverable (.letRec fn args body rest)
  | st, θ, Γ, _, _, hready, hs, hc, .letRec hafn haargs habody harest,
    .letRec hts hfn hargs hbody hrest => by
    have hready : Ready (fn :: args ++ body.bindings ++ rest.bindings) st := hready
    rcases hp : st.declare fn with ⟨fn', st₁⟩
    rcases hq : (st₁.pushMono fn'.name fn'.slot).enter args with ⟨args', st₂⟩
    simp only [infer, hp, hq]
    refine Ends.andThen_of_keeps (infer_keeps body st₂) (fun _ st ret =>
      keeps_leaveThen st _ _ fun st => keeps_unifyThen st _ _ _ fun st =>
        (Keeps.of_refresh [st.resolve fn'] (infer_keeps rest _)).leaving _ 1 1)
      fun hw => ?_
    have henter : st.enter (fn :: args) = (fn' :: args', st₂) := by
      simp only [State.enter, hp, hq]
    have hent : Enters st (fn :: args) (fn' :: args') st₂ := by
      have hent := enters_of_enter st (fn :: args) (by rwa [henter])
      rwa [henter] at hent
    have hin := hent.entered hready.left
    obtain rfl := Binding.map_slot_of_filled hargs
    obtain ⟨θ₂, hθ₂, heq₂⟩ := hent.follows hready.left hs
      (.cons (hafn.slot (by decide)) (Binding.forall₂_slot (by decide) haargs))
    rw [hfn] at heq₂
    have hnames := hin.names.trans
      (congrArg₂ List.cons hafn.name (Binding.map_name_eq haargs)).symm
    have hcover := hc.entered hready.left.left hin hθ₂
    rw [heq₂, hnames] at hcover
    refine ⟨_, (ihbody hin.ready hθ₂.solves hcover habody hbody).run, ?_⟩
    rintro body' st₃ ret ⟨hrun, θ₃, hθ₃, hret, hrec⟩
    have hfb := Infers.framed body hrun hin.ready
    obtain ⟨st₄, hl, hθ₄, hkeep⟩ := hθ₂.inner hready.left hin hfb hθ₃
    obtain ⟨hfb', hslots⟩ := hin.framed hfb hl
    obtain ⟨hslot, hslots⟩ := List.forall_mem_cons.1 hslots
    rw [heq₂, List.map_cons, List.map_cons] at hkeep
    obtain ⟨hfnslot, hargslots⟩ := List.cons.inj hkeep
    have hty := State.Confines.arrow (List.forall_mem_map.2 hslots) hfb'.confines
    obtain ⟨st₅, hu, hθ₅, -⟩ := hθ₄.unify (c := .arrow (args'.map (·.slot)) ret)
      hfb'.steps.regular.complete hslot.1 hty.1 (by rw [hfnslot, Ty.subst_arrow, hargslots, hret])
    have hf := hin.framed_arrow hready.left hfb hl hu
    have hgen := hready.rest hf.steps hf.slots
    have hcover := hc.rest hready hf.steps hf.slots hθ₅
    obtain ⟨hname : fn'.name = _, hnames⟩ := List.cons.inj hnames
    rw [List.length_cons] at hl
    rw [State.leaveThen_of_eq hl, State.unifyThen_of_eq hu]
    refine hθ₅.rest hready hf.steps hf.slots
      (ihrest hgen.ready (hgen.subst_eq ▸ hθ₅.solves) hcover harest ?_)
      fun φ e' hφ heq => ?_
    · change HasType _ (Γ.push fn'.name (Γ.generalize (fn'.slot.subst θ₃))) _ _
      rw [hfnslot, hname]
      exact hrest
    · have hstep := hready.left.unify hfb'.steps hslot hty hu
      have hφ₃ : Agrees body.bindings st₂ st₃ θ₃ φ := fun v hz hv =>
        (hφ.unify hu) v (hin.zone hz) ((State.leave?_same hl).2.symm ▸ hv)
      have hfn' := hφ.mapSlot_resolve hθ₅.solves hf.steps.regular.complete hf.confines hname
        (hfnslot.trans hfn.symm)
      have hargs' := hφ.map_resolve hθ₅.solves hf.steps.regular.complete
        (fun c hc => (hslots c hc).after hstep) hnames hargslots
      change Expr.letRec _ _ _ _ = _
      exact congr (congr (congrArg₂ Expr.letRec hfn' hargs') (hrec φ hφ₃)) heq

/-- The id drawn for the result stands for the derived type, and the type of the function is made
alike to the one that the arguments and this id ask for. -/
theorem recoverable_app {fn : Expr} {args : List Expr} {slot : Ty} (ihfn : Recoverable fn)
    (ihargs : RecoverableAll args) : Recoverable (.app fn args slot)
  | st, θ, Γ, _, T, hready, hs, hc, .app hafn haargs _, .app hfn hargs hslot => by
    have hready : Ready (fn.bindings ++ Expr.bindingsAll args) st := hready
    rw [infer]
    refine (ihfn hready.left hs hc hafn hfn).run.andThen (fun fn' st t =>
      (inferAll_keeps 1 args st).andThen fun args' st ts =>
        (keeps_unifyThen st.freshVar.2 (.app fn' args' slot) (.arrow ts st.freshVar.1) t fun st₁ =>
          keeps_done (.app fn' args' (st.freshVar.1.apply st₁.subst)) st₁ _).of_isPrefix
          st.trace_prefix_freshVar) ?_
    rintro fn' st₁ t ⟨hrun₁, θ₁, hθ₁, ht, hrec₁⟩
    have h₁ := Infers.framed fn hrun₁ hready.left
    have hready₂ := hready.right h₁.steps
    refine (ihargs 1 hready₂ hθ₁.solves (hc.after hready.left h₁.steps hθ₁)
      haargs hargs).runAll.andThen (fun args' st ts =>
        (keeps_unifyThen st.freshVar.2 (.app fn' args' slot) (.arrow ts st.freshVar.1) t fun st₁ =>
          keeps_done (.app fn' args' (st.freshVar.1.apply st₁.subst)) st₁ _).of_isPrefix
          st.trace_prefix_freshVar) ?_
    rintro args' st₂ ts ⟨hrun₂, θ₂, hθ₂, hts, hrec₂⟩
    have h₂ := InfersAll.framed args hrun₂ hready₂
    have ht' := (hθ₂.subst_eq_left hready hθ₁ h₂ h₁.confines).trans ht
    have hfresh := h₂.steps.regular.follows_freshVar hθ₂.solves T
    have hkeep : ∀ {P : Int → Prop} {u : Ty}, st₂.Confines P u → u.subst _ = u.subst θ₂ :=
      fun hu => hfresh.subst_eq hθ₂.solves (List.prefix_refl _)
        (hu.mono fun _ _ => List.not_mem_nil)
    have hret : st₂.freshVar.1.subst (Function.update θ₂ st₂.supply.next T) = T :=
      Function.update_self _ _ _
    have hargs' : ts.map (·.subst (Function.update θ₂ st₂.supply.next T)) = ts.map (·.subst θ₂) :=
      List.map_congr_left fun s hs => hkeep (h₂.confines.of_tuple s hs)
    have ht₂ := h₁.confines.later hready.regular h₁.steps h₂
    have hθ := (hθ₁.trans h₁.steps.next_le hθ₂).trans
      (Int.le_trans h₁.steps.next_le h₂.steps.next_le) hfresh
    rw [List.append_nil] at hθ
    obtain ⟨st', hu, hθ, hcomplete⟩ := hθ.unify (a := .arrow ts st₂.freshVar.1)
      h₂.steps.regular.complete
      (Ty.complete_arrow.2 ⟨Ty.complete_tuple.1 h₂.confines.1, Ty.complete_var _⟩) h₁.confines.1
      (by rw [Ty.subst_arrow, hret, hargs', hts, hkeep ht₂, ht'])
    change (st₂.freshVar.2.unifyThen _ (.arrow ts st₂.freshVar.1) t _).Ends _
    rw [State.unifyThen_of_eq hu]
    intro hw
    have hroom : st₂.supply.next < Supply.last := (hw.of_unify hu).next_lt
    have hf := Framed.after hready.regular h₁.steps h₂
    obtain ⟨hdraw, hconf⟩ := hf.draw hroom
    have hty := State.Confines.arrow (fun s hs => (hf.confines.of_tuple s hs).after hdraw) hconf
    have hf' := Framed.unify hready (hf.steps.trans hdraw) hty (ht₂.after hdraw) hu hconf
    refine ⟨_, _, _, rfl, _, hθ, (hθ.solves.subst_apply _).trans hret, fun φ hφ => ?_⟩
    have hφ₂ : Agrees (fn.bindings ++ Expr.bindingsAll args) st st₂ θ₂ φ := fun v hz hv =>
      ((hφ.unify hu) v hz (Int.lt_of_lt_of_le hv hdraw.next_le)).trans
        (hfresh.eq v hv List.not_mem_nil)
    have habsent : ((Ty.var st₂.supply.next).apply st'.subst).isAbsent = false :=
      ((Ty.complete_var _).apply hcomplete).isAbsent_eq_false
    have hret' : ((Ty.var st₂.supply.next).apply st'.subst).subst φ = T :=
      (hφ.subst_apply hθ.solves hf'.confines).trans hret
    rw [Expr.mapSlots, hrec₁ φ (hφ₂.left hready hθ₂ h₂.steps.next_le),
      hrec₂ φ (hφ₂.right hready.regular h₁.steps), habsent, if_neg Bool.false_ne_true, hret',
      hslot]

theorem recoverable_tuple {es : List Expr} (ih : RecoverableAll es) : Recoverable (.tuple es)
  | st, θ, Γ, _, _, hready, hs, hc, .tuple haes, .tuple hes => by
    rw [infer]
    refine (ih 0 hready hs hc haes hes).andThen
      (fun _ _ _ => List.prefix_refl _) ?_
    rintro es' st₁ ts ⟨θ₁, hθ₁, hts, hrec⟩
    refine ends_done ⟨θ₁, hθ₁, ?_, fun φ hφ => congrArg Expr.tuple (hrec φ hφ)⟩
    rw [Ty.subst_tuple, hts]

/-- The bindings are in scope in the value as well, there with the types in their slots. -/
theorem recoverable_letTuple {vars : List Binding} (ihv : Recoverable v) (ihe : Recoverable e) :
    Recoverable (.letTuple vars v e)
  | st, θ, Γ, _, _, hready, hs, hc, .letTuple havars hav hae,
    .letTuple hts hvars hv he => by
    have hready : Ready (vars ++ v.bindings ++ e.bindings) st := hready
    rcases hp : st.enter vars with ⟨vars', st₁⟩
    simp only [infer, hp]
    refine Ends.andThen_of_keeps (infer_keeps v st₁) (fun _ st t =>
      keeps_leaveThen st _ _ fun st => keeps_unifyThen st _ t _ fun _ =>
        (Keeps.of_refresh _ (infer_keeps e _)).leaving _ 1 _) fun hw => ?_
    have hent : Enters st vars vars' st₁ := by
      have hent := enters_of_enter st vars (by rwa [hp])
      rwa [hp] at hent
    have hin := hent.entered hready.left
    obtain rfl := Binding.map_slot_of_filled hvars
    obtain ⟨θ₁, hθ₁, heq₁⟩ := hent.follows hready.left hs
      (Binding.forall₂_slot (by decide) havars)
    have hnames := hin.names.trans (Binding.map_name_eq havars).symm
    have hcover := hc.entered hready.left.left hin hθ₁
    rw [heq₁, hnames] at hcover
    refine ⟨_, (ihv hin.ready hθ₁.solves hcover hav hv).run, ?_⟩
    rintro v' st₂ t₁ ⟨hrun, θ₂, hθ₂, ht₁, hrec⟩
    have hfv := Infers.framed v hrun hin.ready
    obtain ⟨st₃, hl, hθ₃, hkeep⟩ := hθ₁.inner hready.left hin hfv hθ₂
    obtain ⟨hfv', hslots⟩ := hin.framed hfv hl
    rw [heq₁] at hkeep
    have hty := State.Confines.tuple (List.forall_mem_map.2 hslots)
    obtain ⟨st₄, hu, hθ₄, -⟩ := hθ₃.unify (c := .tuple (vars'.map (·.slot)))
      hfv'.steps.regular.complete hfv'.confines.1 hty.1 (by rw [Ty.subst_tuple, hkeep, ht₁])
    have hf := hin.framed_tuple hready.left hfv hl hu
    have hgen := hready.rest hf.steps hf.slots_of_tuple
    have hcover := hc.rest hready hf.steps hf.slots_of_tuple hθ₄
    rw [hkeep, hnames] at hcover
    rw [State.leaveThen_of_eq hl, State.unifyThen_of_eq hu, List.length_map]
    refine hθ₄.rest hready hf.steps hf.slots_of_tuple
      (ihe hgen.ready (hgen.subst_eq ▸ hθ₄.solves) hcover hae he) fun φ e' hφ heq => ?_
    have hφ₂ : Agrees v.bindings st₁ st₂ θ₂ φ := fun v hz hv =>
      (hφ.unify hu) v (hin.zone hz) ((State.leave?_same hl).2.symm ▸ hv)
    change Expr.letTuple _ _ _ = _
    exact congr (congrArg₂ Expr.letTuple (hφ.map_resolve hθ₄.solves hf.steps.regular.complete
      hf.slots_of_tuple hnames hkeep) (hrec φ hφ₂)) heq

theorem recoverableAll_nil : RecoverableAll []
  | _, _, θ, _, _, _, _, hs, _, .nil, .nil =>
    ends_done ⟨θ, .refl hs, rfl, fun _ _ => rfl⟩

theorem recoverableAll_cons {es : List Expr} (ihe : Recoverable e) (ihes : RecoverableAll es) :
    RecoverableAll (e :: es)
  | i, st, θ, Γ, _, _, hready, hs, hc, .cons ha has, .cons he hes => by
    have hready : Ready (e.bindings ++ Expr.bindingsAll es) st := hready
    rw [inferAll]
    refine (ihe hready.left hs hc ha he).run.andThen (fun _ st _ =>
      (inferAll_keeps (i + 1) es st).andThen fun _ _ _ => List.prefix_refl _) ?_
    rintro e' st₁ t ⟨hrun₁, θ₁, hθ₁, ht, hrec₁⟩
    have h₁ := Infers.framed e hrun₁ hready.left
    have hready₂ := hready.right h₁.steps
    refine (ihes (i + 1) hready₂ hθ₁.solves (hc.after hready.left h₁.steps hθ₁)
      has hes).runAll.andThen (fun _ _ _ => List.prefix_refl _) ?_
    rintro es' st₂ ts ⟨hrun₂, θ₂, hθ₂, hts, hrec₂⟩
    have h₂ := InfersAll.framed es hrun₂ hready₂
    have ht' := (hθ₂.subst_eq_left hready hθ₁ h₂ h₁.confines).trans ht
    refine ends_done ⟨θ₂, hθ₁.trans h₁.steps.next_le hθ₂, ?_, fun φ hφ => ?_⟩
    · rw [List.map_cons, ht', hts]
    · exact congrArg₂ List.cons (hrec₁ φ (hφ.left hready hθ₂ h₂.steps.next_le))
        (hrec₂ φ (hφ.right hready.regular h₁.steps))

end Cases

mutual

/-- Inference recovers whatever can be derived, by induction on the tree. -/
theorem infer_recovers : (e : Expr) → Recoverable e
  | .absent => recoverable_absent
  | .foreign _ => recoverable_foreign
  | .unit => recoverable_unit
  | .bool _ => recoverable_bool
  | .int _ => recoverable_int
  | .var _ => recoverable_var
  | .not e => recoverable_not (infer_recovers e)
  | .neg e => recoverable_neg (infer_recovers e)
  | .arith _ l r => recoverable_arith (infer_recovers l) (infer_recovers r)
  | .eq l r => recoverable_eq (infer_recovers l) (infer_recovers r)
  | .le l r => recoverable_le (infer_recovers l) (infer_recovers r)
  | .ite c e₁ e₂ => recoverable_ite (infer_recovers c) (infer_recovers e₁) (infer_recovers e₂)
  | .letIn _ v e => recoverable_letIn (infer_recovers v) (infer_recovers e)
  | .letRec _ _ body rest => recoverable_letRec (infer_recovers body) (infer_recovers rest)
  | .app fn args _ => recoverable_app (infer_recovers fn) (inferAll_recovers args)
  | .tuple es => recoverable_tuple (inferAll_recovers es)
  | .letTuple _ v e => recoverable_letTuple (infer_recovers v) (infer_recovers e)

theorem inferAll_recovers : (es : List Expr) → RecoverableAll es
  | [] => recoverableAll_nil
  | e :: es => recoverableAll_cons (infer_recovers e) (inferAll_recovers es)

end

/-- Inference finds a type of which the derived type is an instance. -/
theorem infer_complete (e : Expr) {st : State} {θ : Int → Ty} {Γ : Env} {T : Ty}
    (hready : Ready e.bindings st) (hs : st.subst.Solves θ) (hc : st.env.Covers θ Γ)
    (h : HasType .declared Γ e T) :
    (infer e st).Ends fun _ st' t => ∃ θ', Follows e.bindings st θ st' θ' ∧ t.subst θ' = T := by
  obtain ⟨a, ha, hfilled⟩ := h.exists_fills
  intro hw
  obtain ⟨e', st', t, hdone, θ', hθ, ht, -⟩ := infer_recovers e hready hs hc ha hfilled hw
  exact ⟨e', st', t, hdone, θ', hθ, ht⟩

/-! ### Whole passes -/

/-- Inference refuses no program that has a type, and finds its most general type: if a type can be
derived in an environment that arises from the one at hand by `θ`, with the types declared in slots
as they are, then a pass from a well-formed start finds a type of which it is an instance, in a way
that agrees with `θ`. -/
theorem Context.infer_principal {ctx : Context} {env Γ : Env} {root : Expr} {g : Supply} {T' : Ty}
    {θ : Int → Ty} (hg : ctx.passSupply env root = .ok g) (hstart : WellFormed env root g)
    (hroom : NoWrap (ctx.infer env root).trace) (hΓ : env.Image θ Γ)
    (hT : HasType .declared Γ root T') :
    ∃ T θ', (ctx.infer env root).verdict = .inferred T ∧
      (∀ x, x ∈ env.freeVars →
        ((Ty.var x).apply (ctx.infer env root).context.subst).subst θ' = θ x) ∧
      T.subst θ' = T' := by
  have hroot : root.isAbsent = false := by
    cases hT <;> rfl
  have hready := hstart.ready
  rw [Context.trace_infer hg hroot] at hroom
  obtain ⟨e', st', t, hdone, θ', hθ, ht⟩ :=
    infer_complete root hready (Subst.solves_nil θ) hΓ.covers hT hroom
  obtain ⟨hverdict, -, hsubst⟩ := Context.infer_of_done hg hroot hdone
  refine ⟨_, θ', hverdict, fun x hx => ?_, (hθ.solves.subst_apply t).trans ht⟩
  rw [hsubst, hθ.solves.subst_apply, Ty.subst_var]
  exact hθ.eq x (hready.regular.freeVars_lt hx) fun hres => (hready.untouched x hres).free hx

/-- The environment of `pair` with a function type in place of the unknown one. The function type
has the id in it that the scheme of `pair` quantifies, so that one is renamed. -/
def pairInstance : Env :=
  [⟨"pair", ⟨VarSet.ofList [5], .arrow [.var 5] (.tuple [.var 5, .arrow [.var 0] .int])⟩⟩]

theorem image_pairEnv :
    pairEnv.Image (fun v => if v = 1 then .arrow [.var 0] .int else .var v) pairInstance :=
  .cons ⟨rfl, fun _ => 5, by decide, by decide, by decide⟩ .nil

theorem hasType_idTwice :
    HasType .declared pairInstance idTwice
      (.tuple [.int, .tuple [.bool, .arrow [.var 0] .int]]) := by
  have hbody : HasType .declared
      (((pairInstance.pushMono "id" (.arrow [.var 9] (.var 9)))).extend .mono ["x"] [.var 9])
      (.var "x") (.var 9) :=
    .var rfl ⟨.var, Ty.complete_var, by decide⟩
  have hid : ∀ t : Ty, t.Complete → HasType .declared
      (pairInstance.push "id" (pairInstance.generalize (.arrow [.var 9] (.var 9)))) (.var "id")
      (.arrow [t] t) := fun t ht => .var rfl ⟨fun _ => t, fun _ => ht, rfl⟩
  have hpair : HasType .declared
      (pairInstance.push "id" (pairInstance.generalize (.arrow [.var 9] (.var 9)))) (.var "pair")
      (.arrow [.bool] (.tuple [.bool, .arrow [.var 0] .int])) :=
    .var rfl ⟨fun _ => .bool, fun _ => rfl, by decide⟩
  refine .letRec (by decide) (fun _ h => absurd rfl h) (.cons (fun _ _ h => ?_) .nil) hbody ?_
  · cases h
  · refine .tuple (.cons (.app (hid .int rfl) (.cons .int .nil) fun h => absurd rfl h)
      (.cons ?_ .nil))
    exact .app hpair (.cons (.app (hid .bool rfl) (.cons .bool .nil) fun h => absurd rfl h) .nil)
      fun h => absurd rfl h

theorem Context.infer_principal_idTwice :
    ∃ T θ', ((Context.fresh (some ⟨3⟩)).infer pairEnv idTwice).verdict = .inferred T ∧
      (∀ x, x ∈ pairEnv.freeVars →
        ((Ty.var x).apply
            ((Context.fresh (some ⟨3⟩)).infer pairEnv idTwice).context.subst).subst θ' =
          if x = 1 then .arrow [.var 0] .int else .var x) ∧
      T.subst θ' = .tuple [.int, .tuple [.bool, .arrow [.var 0] .int]] :=
  Context.infer_principal rfl wellFormed_idTwice noWrap_idTwice image_pairEnv hasType_idTwice

end LetPoly
