import LetPoly.Proofs.Typing
import Mathlib.Data.Finset.Dedup
import Mathlib.Data.Finset.Order
import Mathlib.Data.Int.Order.Basic

/-!
# Environments that cover others

Inference works in an environment whose variables stand for types yet to be found. A derivation may
use any other environment in which these variables have been given types by a function `θ`. This
file says when the first one is at least as general as the second one, and shows that the ways in
which environments grow keep this up: entries that stay as they are, and entries that are
generalized.

## Main definitions

* `Scheme.Image`, `Env.Image`: a scheme and an environment after `θ`, without capture.
* `Scheme.Covers`: every instance of the second scheme is one of the first, with `θ` for its free
  variables.
* `Env.Covers`: the same for the entries that names mean, and `θ` brings no variables that are not
  free in the second environment.

## Main results

* `Env.exists_image`, `Env.Image.covers`: every environment has an image, and covers it.
* `Env.covers_apply_iff`: a substitution that `θ` solves makes no difference.
* `Env.Covers.generalize`, `Env.Covers.extend`: generalization, and the entries of several names.
-/

namespace LetPoly

variable {θ θ' : Int → Ty}

/-! ### Schemes -/

namespace Scheme

/-- The scheme `σ'` is `σ` with `θ` for its free variables, the quantified ones renamed out of the
way. -/
def Image (θ : Int → Ty) (σ σ' : Scheme) : Prop :=
  ∃ ρ : Int → Int, (∀ v ∈ σ.bound.ids, ∀ w ∈ σ.bound.ids, ρ v = ρ w → v = w) ∧
    (∀ v ∈ σ.freeVars.ids, ∀ w ∈ (θ v).vars, w ∉ σ.bound.ids.map ρ) ∧
    σ' = ⟨.ofList (σ.bound.ids.map ρ), σ.inst (fun v => .var (ρ v)) θ⟩

/-- Every instance of `σ'` is an instance of `σ`, with `θ` for the free variables. -/
def Covers (θ : Int → Ty) (σ σ' : Scheme) : Prop :=
  ∀ t, σ'.Instance t → ∃ r : Int → Ty, t = σ.inst r θ

variable {σ σ' : Scheme} {r : Int → Ty}

theorem inst_congr (h : ∀ v, v ∈ σ.freeVars → θ' v = θ v) : σ.inst r θ' = σ.inst r θ := by
  refine Ty.subst_congr fun v hv => ?_
  by_cases hb : v ∈ σ.bound
  · rw [if_pos hb, if_pos hb]
  · rw [if_neg hb, if_neg hb, h v (mem_freeVars.2 ⟨hv, hb⟩)]

/-- A substitution that `θ` solves, and that has nothing to do with the quantified variables, makes
no difference to the instances. -/
theorem inst_apply {s : Subst} (hs : s.Solves θ) (hdom : ∀ q ∈ s, ¬ q.var ∈ σ.bound)
    (hfree : ∀ v, v ∈ σ.freeVars → ∀ w ∈ (s.eval v).vars, ¬ w ∈ σ.bound) :
    (σ.apply s).inst r θ = σ.inst r θ := by
  rw [apply_eq hdom, inst, inst, Ty.apply_eq_subst, Ty.subst_subst]
  refine Ty.subst_congr fun v hv => ?_
  by_cases hb : v ∈ σ.bound
  · rw [if_pos hb, Subst.eval_of_forall_ne fun q hq e => hdom q hq (e ▸ hb), Ty.subst_var,
      if_pos hb]
  · have hsame :
        (s.eval v).subst (fun w => if w ∈ σ.bound then r w else θ w) = (s.eval v).subst θ :=
      Ty.subst_congr fun w hw => if_neg (hfree v (mem_freeVars.2 ⟨hv, hb⟩) w hw)
    rw [if_neg hb]
    exact hsame.trans (hs.subst_apply (.var v))

theorem covers_mono (θ : Int → Ty) (t : Ty) : (mono t).Covers θ (mono (t.subst θ)) := by
  rintro u ⟨ρ, -, rfl⟩
  have hbound : ∀ v, ¬ v ∈ (∅ : VarSet) := VarSet.not_mem_empty
  refine ⟨ρ, ?_⟩
  simp only [inst, bound_mono, body_mono, hbound, if_false]
  exact Ty.subst_eq_self fun _ _ => rfl

theorem Image.covers (h : σ.Image θ σ') : σ.Covers θ σ' := by
  obtain ⟨ρ, -, hfree, rfl⟩ := h
  rintro t ⟨r, -, rfl⟩
  refine ⟨fun v => r (ρ v), ?_⟩
  rw [inst, inst, inst, Ty.subst_subst]
  refine Ty.subst_congr fun v hv => ?_
  by_cases hb : v ∈ σ.bound
  · rw [if_pos hb, if_pos hb, Ty.subst_var,
      if_pos (VarSet.mem_ofList.2 (List.mem_map_of_mem hb))]
  · rw [if_neg hb, if_neg hb]
    exact Ty.subst_eq_self fun w hw => if_neg fun hwb =>
      hfree v (mem_freeVars.2 ⟨hv, hb⟩) w hw (VarSet.mem_ofList.1 hwb)

/-- What `θ` puts in place of the free variables is free afterwards. -/
theorem Image.mem_freeVars (h : σ.Image θ σ') {v w : Int} (hv : v ∈ σ.freeVars)
    (hw : w ∈ (θ v).vars) : w ∈ σ'.freeVars := by
  obtain ⟨ρ, -, hfree, rfl⟩ := h
  obtain ⟨hvb, hb⟩ := Scheme.mem_freeVars.1 hv
  refine Scheme.mem_freeVars.2 ⟨?_, fun hwb => hfree v hv w hw (VarSet.mem_ofList.1 hwb)⟩
  rw [inst, Ty.mem_vars_subst]
  exact ⟨v, hvb, by rwa [if_neg hb]⟩

/-- Every scheme has an image: the quantified variables can be renamed to larger ids than any that
`θ` brings. -/
theorem exists_image (θ : Int → Ty) (σ : Scheme) : ∃ σ', σ.Image θ σ' := by
  obtain ⟨n, hn⟩ := (σ.freeVars.ids.flatMap fun v => (θ v).vars).toFinset.exists_le
  refine ⟨_, fun v => n + 1 + σ.bound.ids.idxOf v, fun v hv w hw h => ?_, fun v hv w hw hmem => ?_,
    rfl⟩
  · have h : n + 1 + (σ.bound.ids.idxOf v : Int) = n + 1 + σ.bound.ids.idxOf w := h
    exact (List.idxOf_inj hv).1 (by omega)
  · obtain ⟨u, -, rfl⟩ := List.mem_map.1 hmem
    have hle := hn _ (List.mem_toFinset.2 (List.mem_flatMap.2 ⟨v, hv, hw⟩))
    omega

end Scheme

/-! ### Environments -/

namespace Env

/-- The environment `Γ` is `env` after `θ`, without capture. -/
def Image (θ : Int → Ty) (env Γ : Env) : Prop :=
  List.Forall₂ (fun x y => x.name = y.name ∧ x.scheme.Image θ y.scheme) env Γ

/-- What a name means in `Γ` is covered by what it means in `env`, and `θ` brings no variables that
are not free in `Γ`. -/
structure Covers (θ : Int → Ty) (env Γ : Env) : Prop where
  found : ∀ x σ', Γ.lookup x = some σ' → ∃ σ, env.lookup x = some σ ∧ σ.Covers θ σ'
  free : ∀ v, v ∈ env.freeVars → ∀ w ∈ (θ v).vars, w ∈ Γ.freeVars

theorem lookup_push (env : Env) (x y : String) (σ : Scheme) :
    (env.push y σ).lookup x = if y = x then some σ else env.lookup x := by
  by_cases h : y = x <;> simp [lookup, push, h]

variable {env Γ : Env}

/-- A substitution that `θ` solves makes no difference. -/
theorem covers_apply_iff {s : Subst} (hs : s.Solves θ) (hdom : ∀ q ∈ s, ¬ env.Bounds q.var)
    (hlive : ∀ v, env.Live s v → ¬ env.Bounds v) :
    (env.apply s).Covers θ Γ ↔ env.Covers θ Γ := by
  have hinst : ∀ x σ, env.lookup x = some σ → ∀ r, (σ.apply s).inst r θ = σ.inst r θ := by
    intro x σ hx r
    have hmem := mem_of_lookup hx
    refine Scheme.inst_apply hs (fun q hq hb => hdom q hq ⟨_, hmem, hb⟩) fun v hv w hw hb => ?_
    exact hlive w ⟨v, mem_freeVars.2 ⟨_, hmem, hv⟩, hw⟩ ⟨_, hmem, hb⟩
  have heval : ∀ v, θ v = (s.eval v).subst θ := fun v => (hs.subst_apply (.var v)).symm
  constructor
  · intro h
    refine ⟨fun x σ' hx => ?_, fun v hv w hw => ?_⟩
    · obtain ⟨τ, hτ, hcovers⟩ := h.found x σ' hx
      rw [lookup_apply] at hτ
      obtain ⟨σ, hσ, rfl⟩ := Option.map_eq_some_iff.1 hτ
      refine ⟨σ, hσ, fun t ht => ?_⟩
      obtain ⟨r, rfl⟩ := hcovers t ht
      exact ⟨r, hinst x σ hσ r⟩
    · rw [heval v, Ty.mem_vars_subst] at hw
      obtain ⟨u, hu, hwu⟩ := hw
      exact h.free u ((mem_freeVars_apply hdom hlive).2 ⟨v, hv, hu⟩) w hwu
  · intro h
    refine ⟨fun x σ' hx => ?_, fun u hu w hw => ?_⟩
    · obtain ⟨σ, hσ, hcovers⟩ := h.found x σ' hx
      refine ⟨σ.apply s, by rw [lookup_apply, hσ, Option.map_some], fun t ht => ?_⟩
      obtain ⟨r, rfl⟩ := hcovers t ht
      exact ⟨r, (hinst x σ hσ r).symm⟩
    · obtain ⟨v, hv, huv⟩ := (mem_freeVars_apply hdom hlive).1 hu
      refine h.free v hv w ?_
      rw [heval v, Ty.mem_vars_subst]
      exact ⟨u, huv, hw⟩

namespace Covers

/-- Only the free variables count. -/
theorem congr (h : env.Covers θ Γ) (heq : ∀ v, v ∈ env.freeVars → θ' v = θ v) :
    env.Covers θ' Γ := by
  refine ⟨fun x σ' hx => ?_, fun v hv w hw => h.free v hv w (heq v hv ▸ hw)⟩
  obtain ⟨σ, hσ, hcovers⟩ := h.found x σ' hx
  refine ⟨σ, hσ, fun t ht => ?_⟩
  obtain ⟨r, rfl⟩ := hcovers t ht
  exact ⟨r, (Scheme.inst_congr fun v hv =>
    heq v (mem_freeVars.2 ⟨_, mem_of_lookup hσ, hv⟩)).symm⟩

theorem push (h : env.Covers θ Γ) {σ σ' : Scheme} (hσ : σ.Covers θ σ')
    (hfree : ∀ v, v ∈ σ.freeVars → ∀ w ∈ (θ v).vars, w ∈ σ'.freeVars ∨ w ∈ Γ.freeVars)
    (x : String) : (env.push x σ).Covers θ (Γ.push x σ') := by
  refine ⟨fun y τ hy => ?_, fun v hv w hw => mem_freeVars_push.2 ?_⟩
  · rw [lookup_push] at hy ⊢
    split at hy
    · rename_i hxy
      rw [if_pos hxy]
      exact ⟨σ, rfl, Option.some.inj hy ▸ hσ⟩
    · rename_i hxy
      rw [if_neg hxy]
      exact h.found y τ hy
  · rcases mem_freeVars_push.1 hv with hv | hv
    · exact hfree v hv w hw
    · exact .inr (h.free v hv w hw)

/-- Generalization in the first environment is at least as general as in the second one: what `θ`
puts in place of a variable that is not quantified has no quantified variables. -/
theorem generalize (h : env.Covers θ Γ) (t : Ty) :
    (env.generalize t).Covers θ (Γ.generalize (t.subst θ)) := by
  rintro u ⟨ρ, -, rfl⟩
  refine ⟨fun v => (θ v).subst fun w =>
    if w ∈ (Γ.generalize (t.subst θ)).bound then ρ w else .var w, ?_⟩
  change (t.subst θ).subst _ = t.subst _
  rw [Ty.subst_subst]
  refine Ty.subst_congr fun v hv => ?_
  by_cases hb : v ∈ (env.generalize t).bound
  · rw [if_pos hb]
  · rw [if_neg hb]
    have hfree : v ∈ env.freeVars := by
      by_contra hfree
      exact hb (mem_bound_generalize.2 ⟨hv, hfree⟩)
    exact Ty.subst_eq_self fun w hw => if_neg fun hwb =>
      (mem_bound_generalize.1 hwb).2 (h.free v hfree w hw)

/-- The entries of several names. -/
theorem extend {gen gen' : Ty → Scheme} (h : env.Covers θ Γ)
    (hgen : ∀ t, (gen t).Covers θ (gen' (t.subst θ)))
    (hfree : ∀ t v, v ∈ (gen t).freeVars → ∀ w ∈ (θ v).vars,
      w ∈ (gen' (t.subst θ)).freeVars ∨ w ∈ Γ.freeVars) (xs : List String) (ts : List Ty) :
    (env.extend gen xs ts).Covers θ (Γ.extend gen' xs (ts.map (·.subst θ))) := by
  induction xs generalizing env Γ ts with
  | nil => exact h
  | cons x xs ih =>
    obtain _ | ⟨t, ts⟩ := ts
    · exact h
    · refine ih (h.push (hgen t) (hfree t) x) (fun u v hv w hw => ?_) ts
      exact (hfree u v hv w hw).imp_right fun hΓ => mem_freeVars_push.2 (.inr hΓ)

theorem extend_mono (h : env.Covers θ Γ) (xs : List String) (ts : List Ty) :
    (env.extend .mono xs ts).Covers θ (Γ.extend .mono xs (ts.map (·.subst θ))) := by
  refine h.extend (Scheme.covers_mono θ) (fun t v hv w hw => .inl ?_) xs ts
  rw [Scheme.mem_freeVars_mono] at hv ⊢
  exact (Ty.mem_vars_subst _).2 ⟨v, hv, hw⟩

theorem extend_generalize (h : env.Covers θ Γ) (xs : List String) (ts : List Ty) :
    (env.extend env.generalize xs ts).Covers θ
      (Γ.extend Γ.generalize xs (ts.map (·.subst θ))) :=
  h.extend h.generalize
    (fun _ v hv w hw => .inr (h.free v (mem_freeVars_generalize.1 hv).2 w hw)) xs ts

end Covers

theorem exists_image (θ : Int → Ty) (env : Env) : ∃ Γ, env.Image θ Γ := by
  induction env with
  | nil => exact ⟨[], .nil⟩
  | cons x env ih =>
    obtain ⟨Γ, hΓ⟩ := ih
    obtain ⟨σ, hσ⟩ := x.scheme.exists_image θ
    exact ⟨⟨x.name, σ⟩ :: Γ, .cons ⟨rfl, hσ⟩ hΓ⟩

theorem Image.covers (h : env.Image θ Γ) : env.Covers θ Γ := by
  induction h with
  | nil =>
    refine ⟨fun x σ' hx => ?_, fun v hv => ?_⟩
    · cases hx
    · obtain ⟨x, hx, -⟩ := mem_freeVars.1 hv
      cases hx
  | @cons a b env Γ hab _ ih =>
    obtain ⟨x, σ⟩ := a
    obtain ⟨y, σ'⟩ := b
    obtain ⟨rfl, himage⟩ := hab
    exact ih.push himage.covers (fun v hv w hw => .inl (himage.mem_freeVars hv hw)) x

end Env

end LetPoly
