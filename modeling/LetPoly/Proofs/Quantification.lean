import LetPoly.Proofs.Drawing
import LetPoly.Proofs.Relabelling

/-!
# Quantified variables

A scheme is a type of which some variables are quantified. This file says what that means for the
three operations that make and use schemes. An instance is the body with new names for the
quantified variables and with all others as they were. A substitution that has nothing to do with
the quantified variables may be applied before or after an instance is taken. And generalization
quantifies exactly the variables of the type that are not free in an entry of the environment, in
whatever way the environment has come about.

## Main definitions

* `Supply.Fits`: an id that fits into a word.
* `Ty.Renames`: a function that gives new names to some variables of a type.
* `Env.Step`, `Env.after?`: what can be done to an environment, and what comes of it.
* `Env.above?`: how many entries are left above those that were there before.

## Main results

* `Supply.nodup_freshList`: no id is handed out twice, even if the supply overflows.
* `Scheme.exists_renames`: renaming one variable after the other merges no two of them.
* `Scheme.instantiate_eq_relabel`: an instance is a copy with new names.
* `Scheme.instantiate_apply`: substitution commutes with taking instances.
* `Env.getElem?_after?`: where the entries of an environment come from.
* `Env.bound_generalize_of_steps`: generalization is exact.
-/

namespace LetPoly

/-! ### Ids that wrap around -/

namespace Supply

/-- The number of ids, after which the supply is back where it was. -/
def period : Nat := 0x10000000000000000

/-- The id is a signed 64-bit word. -/
def Fits (v : Int) : Prop :=
  first ≤ v ∧ v ≤ last

instance (v : Int) : Decidable (Fits v) :=
  inferInstanceAs (Decidable (first ≤ v ∧ v ≤ last))

theorem Fits.bmod_eq {v : Int} (h : Fits v) : Int.bmod v period = v := by
  obtain ⟨hlow, hhigh⟩ := h
  rw [first] at hlow
  rw [last] at hhigh
  exact Int.bmod_eq_of_le (by rw [period]; omega) (by rw [period]; omega)

/-- One step after the id that follows `n` is two steps after `n`, and so on. -/
theorem modEq_of_modEq_succ {n v : Int} {i : Nat} (h : v ≡ succ n + i [ZMOD period]) :
    v ≡ n + (i + 1 : Nat) [ZMOD period] := by
  have hsucc : succ n ≡ n + 1 [ZMOD period] := Int.bmod_emod
  have hsum : n + (i + 1 : Nat) = n + 1 + i := by omega
  rw [hsum]
  exact h.trans (hsucc.add_right i)

/-- The ids handed out follow the first one, modulo the number of ids. -/
theorem exists_modEq_of_mem_freshList {g : Supply} {k : Nat} {v : Int}
    (h : v ∈ (g.freshList k).1) : ∃ i : Nat, i < k ∧ v ≡ g.next + i [ZMOD period] := by
  induction k generalizing g with
  | zero => exact absurd h List.not_mem_nil
  | succ k ih =>
    rw [freshList_succ] at h
    rcases List.mem_cons.1 h with rfl | h
    · exact ⟨0, Nat.succ_pos k, by simp⟩
    · obtain ⟨i, hi, hmod⟩ := ih h
      exact ⟨i + 1, Nat.succ_lt_succ hi, modEq_of_modEq_succ hmod⟩

/-- **No id is handed out twice**, even if the supply overflows: it comes back to an id only after
all others. -/
theorem nodup_freshList (g : Supply) {k : Nat} (hk : k ≤ period) : (g.freshList k).1.Nodup := by
  induction k generalizing g with
  | zero => exact List.nodup_nil
  | succ k ih =>
    rw [freshList_succ, List.nodup_cons]
    refine ⟨fun hmem => ?_, ih _ (Nat.le_of_succ_le hk)⟩
    obtain ⟨i, hi, hmod⟩ := exists_modEq_of_mem_freshList hmem
    have hround : g.next + (i + 1 : Nat) ≡ g.next + 0 [ZMOD period] := by
      rw [add_zero]
      exact (modEq_of_modEq_succ hmod).symm
    have hdvd : period ∣ i + 1 :=
      Int.natCast_dvd_natCast.1 (Int.modEq_zero_iff_dvd.1 (Int.ModEq.add_left_cancel' _ hround))
    have := Nat.le_of_dvd (Nat.succ_pos i) hdvd
    omega

/-- After `k` ids the supply has advanced by `k`, modulo the number of ids. -/
theorem next_freshList {g : Supply} (hg : Int.bmod g.next period = g.next) (k : Nat) :
    (g.freshList k).2.next = Int.bmod (g.next + k) period := by
  induction k generalizing g with
  | zero => rw [Nat.cast_zero, add_zero, hg, freshList]
  | succ k ih =>
    have hnext : g.next + (k + 1 : Nat) = g.next + 1 + k := by omega
    have hfix : Int.bmod g.fresh.2.next period = g.fresh.2.next := Int.bmod_bmod
    rw [freshList_succ, hnext]
    exact (ih hfix).trans Int.bmod_add_bmod

end Supply

/-- There are no more quantified variables than ids. -/
theorem VarSet.size_le_period {vs : VarSet} (h : ∀ v ∈ vs, Supply.Fits v) :
    vs.size ≤ Supply.period := by
  have hsub : vs.ids.toFinset ⊆ Finset.Icc Supply.first Supply.last := fun v hv =>
    Finset.mem_Icc.2 (h v (List.mem_toFinset.1 hv))
  have hcard := Finset.card_le_card hsub
  rw [List.toFinset_card_of_nodup vs.nodup, Int.card_Icc] at hcard
  exact hcard

/-! ### Instances -/

/-- The function `r` gives the variables of the type that are in the list `vs` new names from the
list `fs`, different ones to different variables, and leaves the others alone. -/
structure Ty.Renames (vs fs : List Int) (t : Ty) (r : Int → Int) : Prop where
  fixes : ∀ x ∈ t.vars, x ∉ vs → r x = x
  into : ∀ x ∈ t.vars, x ∈ vs → r x ∈ fs
  apart : ∀ x ∈ t.vars, ∀ y ∈ t.vars, x ∈ vs → y ∈ vs → r x = r y → x = y

namespace Scheme

variable {vs fs : List Int} {t : Ty} {r : Int → Int} {v f : Int}

/-- One variable is renamed before the others. Its new name may be one of those that are still to
be renamed, but then no variable of the type had that name. -/
theorem renames_cons (hf : f ∉ t.vars) (hfs : f ∉ fs) (h : (t.rename v f).Renames vs fs r) :
    t.Renames (v :: vs) (f :: fs) fun x => r (if x = v then f else x) := by
  have hother {x : Int} (hx : x ∈ t.vars) (hne : x ≠ v) : x ∈ (t.rename v f).vars :=
    (Ty.mem_vars_subst t).2 ⟨x, hx, by simp [Ty.single, hne]⟩
  have hnew (hv : v ∈ t.vars) : f ∈ (t.rename v f).vars :=
    (Ty.mem_vars_subst t).2 ⟨v, hv, by simp [Ty.single]⟩
  -- the name that `v` has in the end is not that of another variable
  have hmerge {x : Int} (hv : v ∈ t.vars) (hx : x ∈ t.vars) (hne : x ≠ v) (hxs : x ∈ vs) :
      r f ≠ r x := by
    intro he
    by_cases hfv : f ∈ vs
    · exact hf (h.apart f (hnew hv) x (hother hx hne) hfv hxs he ▸ hx)
    · rw [h.fixes f (hnew hv) hfv] at he
      exact hfs (he ▸ h.into x (hother hx hne) hxs)
  refine ⟨fun x hx hxs => ?_, fun x hx hxs => ?_, fun x hx y hy hxs hys he => ?_⟩
  · rw [List.mem_cons, not_or] at hxs
    rw [if_neg hxs.1]
    exact h.fixes x (hother hx hxs.1) hxs.2
  · by_cases hxv : x = v
    · subst hxv
      rw [if_pos rfl]
      by_cases hfv : f ∈ vs
      · exact List.mem_cons_of_mem _ (h.into f (hnew hx) hfv)
      · rw [h.fixes f (hnew hx) hfv]
        exact List.mem_cons_self
    · rw [if_neg hxv]
      exact List.mem_cons_of_mem _
        (h.into x (hother hx hxv) ((List.mem_cons.1 hxs).resolve_left hxv))
  · have htail {x : Int} (hxv : x ≠ v) (hxs : x ∈ v :: vs) : x ∈ vs :=
      (List.mem_cons.1 hxs).resolve_left hxv
    by_cases hxv : x = v <;> by_cases hyv : y = v
    · rw [hxv, hyv]
    · rw [if_pos hxv, if_neg hyv] at he
      exact absurd he (hmerge (hxv ▸ hx) hy hyv (htail hyv hys))
    · rw [if_neg hxv, if_pos hyv] at he
      exact absurd he.symm (hmerge (hyv ▸ hy) hx hxv (htail hxv hxs))
    · rw [if_neg hxv, if_neg hyv] at he
      exact h.apart x (hother hx hxv) y (hother hy hyv) (htail hxv hxs) (htail hyv hys) he

/-- **Renaming one variable after the other merges no two of them**, as long as the fresh ids are
new to the type and differ from each other. -/
theorem exists_renames (vs : List Int) (t : Ty) (g : Supply)
    (hnodup : (g.freshList vs.length).1.Nodup)
    (hfresh : ∀ f ∈ (g.freshList vs.length).1, f ∉ t.vars) :
    ∃ r, t.Renames vs (g.freshList vs.length).1 r ∧ (refresh vs t g).1 = t.relabel r := by
  induction vs generalizing t g with
  | nil =>
    refine ⟨id, ⟨fun _ _ _ => rfl, fun _ _ h => absurd h List.not_mem_nil,
      fun _ _ _ _ h => absurd h List.not_mem_nil⟩, ?_⟩
    exact (Ty.relabel_eq_self fun _ _ => rfl).symm
  | cons v vs ih =>
    rw [List.length_cons, Supply.freshList_succ] at hnodup hfresh ⊢
    rw [List.nodup_cons] at hnodup
    rw [List.forall_mem_cons] at hfresh
    -- the fresh ids that are left are new to the renamed type as well
    have hfresh' : ∀ f ∈ (g.fresh.2.freshList vs.length).1, f ∉ (t.rename v g.next).vars := by
      intro f hf hmem
      rcases Ty.mem_vars_replace hmem with ⟨hmem, -⟩ | hmem
      · exact hfresh.2 f hf hmem
      · exact hnodup.1 (Ty.mem_vars_var.1 hmem ▸ hf)
    obtain ⟨r, hr, heq⟩ := ih (t.rename v g.next) g.fresh.2 hnodup.2 hfresh'
    refine ⟨_, renames_cons hfresh.1 hnodup.1 hr, ?_⟩
    rw [refresh]
    refine heq.trans ?_
    rw [Ty.rename, Ty.replace, Ty.relabel_subst, Ty.relabel]
    refine Ty.subst_congr fun x _ => ?_
    rw [Ty.single]
    split <;> rfl

/-- **An instance is a copy with new names.** If none of the ids that are handed out for it occurs
in the body, the instance is the body with other ids: those that are not quantified stay, different
quantified ones become different ids among those handed out, and the supply advances by the number
of quantified variables. A fresh id that is itself quantified is renamed once more when its turn
comes, and that does no harm. -/
theorem instantiate_eq_relabel {σ : Scheme} {g : Supply} (hbound : ∀ v ∈ σ.bound, Supply.Fits v)
    (hnext : Supply.Fits g.next) (hfresh : ∀ v ∈ (g.freshList σ.bound.size).1, v ∉ σ.body.vars) :
    (∃ r : Int → Int, (σ.instantiate g).1 = σ.body.relabel r ∧ (∀ x ∈ σ.freeVars, r x = x) ∧
      Set.MapsTo r {x | x ∈ σ.body.vars ∧ x ∈ σ.bound} {v | v ∈ (g.freshList σ.bound.size).1} ∧
      Set.InjOn r {x | x ∈ σ.body.vars ∧ x ∈ σ.bound}) ∧
    (σ.instantiate g).2.next = Int.bmod (g.next + σ.bound.size) Supply.period := by
  have hnodup := g.nodup_freshList (VarSet.size_le_period hbound)
  obtain ⟨r, hr, heq⟩ := exists_renames σ.bound.ids σ.body g hnodup hfresh
  refine ⟨⟨r, heq, fun x hx => ?_, fun x hx => ?_, fun x hx y hy => ?_⟩, ?_⟩
  · obtain ⟨hbody, hfree⟩ := mem_freeVars.1 hx
    exact hr.fixes x hbody hfree
  · exact hr.into x hx.1 hx.2
  · exact hr.apart x hx.1 y hy.1 hx.2 hy.2
  · rw [instantiate, snd_refresh]
    exact Supply.next_freshList hnext.bmod_eq _

/-- Three quantified variables, of which the middle one does not occur, and a free one. -/
def chained : Scheme :=
  ⟨.ofList [1, 2, 5], .arrow [.var 1, .var 5] (.var 0)⟩

/-- The first of the ids `2`, `3`, `4` is itself quantified, so that `1` ends up as `3`. -/
theorem instantiate_eq_relabel_chained :
    (Supply.freshList ⟨2⟩ chained.bound.size).1 = [2, 3, 4] ∧ 2 ∈ chained.bound ∧
      chained.instantiate ⟨2⟩ = (.arrow [.var 3, .var 4] (.var 0), ⟨5⟩) ∧
      ∃ r : Int → Int, (chained.instantiate ⟨2⟩).1 = chained.body.relabel r ∧ r 0 = 0 ∧
        r 1 ∈ [2, 3, 4] ∧ r 5 ∈ [2, 3, 4] ∧ r 1 ≠ r 5 := by
  have hids : (Supply.freshList ⟨2⟩ chained.bound.size).1 = [2, 3, 4] := by decide
  obtain ⟨⟨r, heq, hfree, hinto, hinj⟩, -⟩ := instantiate_eq_relabel (σ := chained) (g := ⟨2⟩)
    (by decide) (by decide) (by decide)
  rw [hids] at hinto
  have h1 : 1 ∈ chained.body.vars ∧ 1 ∈ chained.bound := by decide
  have h5 : 5 ∈ chained.body.vars ∧ 5 ∈ chained.bound := by decide
  exact ⟨hids, by decide, by decide, r, heq, hfree 0 (by decide), hinto h1, hinto h5,
    fun h => absurd (hinj h1 h5 h) (by decide)⟩

end Scheme

/-! ### Substitutions and instances -/

/-- Equations for ids that neither the type nor an equation mentions may be left out. -/
theorem Ty.apply_filter_of_within {P : Int → Prop} {p : Equation → Bool} {s : Subst}
    {t : Ty} (hs : ∀ q ∈ s, q.type.Within P) (hp : ∀ q ∈ s, p q = false → ¬ P q.var)
    (ht : t.Within P) : t.apply (s.filter p) = t.apply s := by
  induction s generalizing t with
  | nil => rfl
  | cons q s ih =>
    rw [List.forall_mem_cons] at hs hp
    cases hq : p q with
    | true =>
      rw [List.filter_cons_of_pos hq, Ty.apply_cons, Ty.apply_cons]
      exact ih hs.2 hp.2 (ht.replace hs.1)
    | false =>
      rw [List.filter_cons_of_neg (by rw [hq]; decide), Ty.apply_cons,
        Ty.replace_eq_self fun hmem => hp.1 hq (ht _ hmem)]
      exact ih hs.2 hp.2 ht

namespace Scheme

variable {σ : Scheme} {s : Subst}

/-- A substitution that puts in no quantified variable acts on the others alone. -/
theorem body_apply_eq_inst (hs : ∀ q ∈ s, q.type.Within fun v => ¬ v ∈ σ.bound) :
    (σ.apply s).body = σ.inst .var s.eval := by
  rw [inst, apply, Ty.apply_eq_subst]
  refine Ty.subst_congr fun v _ => ?_
  by_cases hv : v ∈ σ.bound
  · rw [if_pos hv]
    refine Subst.eval_of_forall_ne fun q hq e => ?_
    have hkept := (List.mem_filter.1 hq).2
    simp [VarSet.contains_eq_decide, e, hv] at hkept
  · rw [if_neg hv]
    refine Ty.apply_filter_of_within hs (fun q _ hq => ?_) fun w hw => Ty.mem_vars_var.1 hw ▸ hv
    simpa [VarSet.contains_eq_decide] using hq

theorem eval_within (hs : ∀ q ∈ s, q.type.Within fun v => ¬ v ∈ σ.bound) {v : Int}
    (hv : ¬ v ∈ σ.bound) : (s.eval v).Within fun w => ¬ w ∈ σ.bound := by
  intro w hw
  rcases Ty.mem_vars_apply hw with hw | ⟨q, hq, hw⟩
  · exact Ty.mem_vars_var.1 hw ▸ hv
  · exact hs q hq w hw

/-- What is free after the substitution stems from what was free before. -/
theorem mem_freeVars_apply_iff (hs : ∀ q ∈ s, q.type.Within fun v => ¬ v ∈ σ.bound) {v : Int} :
    v ∈ (σ.apply s).freeVars ↔ ∃ x ∈ σ.freeVars, v ∈ ((Ty.var x).apply s).vars := by
  rw [mem_freeVars, bound_apply, body_apply_eq_inst hs, inst, Ty.mem_vars_subst]
  constructor
  · rintro ⟨⟨x, hx, hvx⟩, hv⟩
    by_cases hbound : x ∈ σ.bound
    · rw [if_pos hbound, Ty.mem_vars_var] at hvx
      exact absurd (hvx ▸ hbound) hv
    · rw [if_neg hbound] at hvx
      exact ⟨x, mem_freeVars.2 ⟨hx, hbound⟩, hvx⟩
  · rintro ⟨x, hx, hvx⟩
    obtain ⟨hbody, hbound⟩ := mem_freeVars.1 hx
    exact ⟨⟨x, hbody, by rwa [if_neg hbound]⟩, eval_within hs hbound v hvx⟩

/-- **Substitution commutes with taking instances.** Let the types of a substitution mention no
quantified variable, and let the supply be above the quantified ids and those that the substitution
binds, and not overflow. Then an instance of the scheme after the substitution is the instance
before with the substitution applied, drawn from the same supply. The quantified variables are the
same, and the free ones are those that the free ones before have become. -/
theorem instantiate_apply {g : Supply} (hs : ∀ q ∈ s, q.type.Within fun v => ¬ v ∈ σ.bound)
    (hbound : ∀ v ∈ σ.bound, v < g.next) (hsub : ∀ q ∈ s, q.var < g.next)
    (hlow : Supply.first ≤ g.next)
    (hroom : ∀ v ∈ (g.freshList σ.bound.size).1, v < Supply.last) :
    (σ.apply s).instantiate g = ((σ.instantiate g).1.apply s, (σ.instantiate g).2) ∧
      (σ.apply s).bound = σ.bound ∧
      ∀ v, v ∈ (σ.apply s).freeVars ↔ ∃ x ∈ σ.freeVars, v ∈ ((Ty.var x).apply s).vars := by
  refine ⟨?_, rfl, fun v => mem_freeVars_apply_iff hs⟩
  have hrefresh (t : Ty) := refresh_eq σ.bound.ids t g σ.bound.nodup hbound hlow hroom
  rw [instantiate, bound_apply, body_apply_eq_inst hs, hrefresh, instantiate, hrefresh]
  refine Prod.ext ?_ rfl
  change (σ.inst _ _).subst _ = (σ.body.subst _).apply s
  rw [subst_inst, inst, Ty.apply_eq_subst, Ty.subst_subst]
  refine Ty.subst_congr fun v _ => ?_
  by_cases hv : v ∈ σ.bound
  · -- no equation is about the new name
    have hname : freshNames g.next σ.bound.ids v = .var (g.next + σ.bound.ids.idxOf v) := if_pos hv
    rw [if_pos hv, Ty.subst_var, hname, Ty.subst_var]
    refine (Subst.eval_of_forall_ne fun q hq => ?_).symm
    have := hsub q hq
    omega
  · -- the substitution puts in nothing that is renamed
    have hname : freshNames g.next σ.bound.ids v = .var v := if_neg hv
    rw [if_neg hv, hname, Ty.subst_var]
    exact Ty.subst_eq_self fun w hw => if_neg (eval_within hs hv w hw)

/-- One quantified and two free variables. -/
def mixed : Scheme :=
  ⟨.ofList [4], .arrow [.var 4, .var 0] (.tuple [.var 1, .var 4])⟩

/-- An equation for a free variable, one for the quantified variable and one for what the first
one has put in. -/
def mixedSubst : Subst :=
  [⟨0, .tuple [.var 2, .var 1]⟩, ⟨4, .int⟩, ⟨1, .bool⟩]

theorem instantiate_apply_mixed :
    (mixed.apply mixedSubst).instantiate ⟨5⟩ = ((mixed.instantiate ⟨5⟩).1.apply mixedSubst, ⟨6⟩) ∧
      (mixed.apply mixedSubst).instantiate ⟨5⟩ =
        (.arrow [.var 5, .tuple [.var 2, .bool]] (.tuple [.bool, .var 5]), ⟨6⟩) ∧
      (∀ v, v ∈ (mixed.apply mixedSubst).freeVars ↔
        ∃ x ∈ mixed.freeVars, v ∈ ((Ty.var x).apply mixedSubst).vars) ∧
      (mixed.apply mixedSubst).freeVars.ids = [2] := by
  have hs : ∀ q ∈ mixedSubst, q.type.Within fun v => ¬ v ∈ mixed.bound := by
    unfold Ty.Within
    decide
  obtain ⟨heq, -, hfree⟩ := instantiate_apply (σ := mixed) (s := mixedSubst) (g := ⟨5⟩)
    hs (by decide) (by decide) (by decide) (by decide)
  exact ⟨heq, by decide, hfree, by decide⟩

end Scheme

/-! ### Environments and their histories -/

namespace Env

/-- What can be done to an environment. -/
inductive Step where
  | push (name : String) (σ : Scheme)
  | pop
  | apply (s : Subst)

/-- The environment after a step, unless an entry is to be taken from an empty one. -/
def step? (env : Env) : Step → Option Env
  | .push name σ => some (env.push name σ)
  | .pop => env.pop?
  | .apply s => some (env.apply s)

/-- The environment that steps make of the empty one. -/
def after? (steps : List Step) : Option Env :=
  steps.foldlM step? []

/-- The number of entries above those from before, unless one of those is taken away. -/
def rise? : Nat → Step → Option Nat
  | k, .push _ _ => some (k + 1)
  | k + 1, .pop => some k
  | 0, .pop => none
  | k, .apply _ => some k

/-- How many entries steps leave above those that were there before, unless they take one of those
away. -/
def above? (steps : List Step) : Option Nat :=
  steps.foldlM rise? 0

/-- The equations that the steps apply. -/
def equations (steps : List Step) : Subst :=
  steps.flatMap fun
    | .apply s => s
    | _ => []

/-- One of the steps pushed an entry, the later ones have left it there with `k` entries above it,
and `e` is what was pushed with all the later equations applied. -/
def Remains (steps : List Step) (k : Nat) (e : Entry) : Prop :=
  ∃ before name σ later, steps = before ++ .push name σ :: later ∧ above? later = some k ∧
    e = ⟨name, σ.apply (equations later)⟩

variable {steps : List Step} {step : Step} {k : Nat} {e : Entry} {env : Env}

theorem after?_concat : after? (steps ++ [step]) = (after? steps).bind (step? · step) := by
  simp [after?, List.foldlM_append]

theorem above?_concat : above? (steps ++ [step]) = (above? steps).bind (rise? · step) := by
  simp [above?, List.foldlM_append]

theorem equations_concat :
    equations (steps ++ [step]) = equations steps ++ equations [step] :=
  List.flatMap_append

/-- An entry is there after one more step if that step pushed it, or if it was there before. -/
theorem remains_concat : Remains (steps ++ [step]) k e ↔
    (∃ name σ, step = .push name σ ∧ k = 0 ∧ e = ⟨name, σ⟩) ∨
      ∃ j d, Remains steps j d ∧ rise? j step = some k ∧
        e = ⟨d.name, d.scheme.apply (equations [step])⟩ := by
  constructor
  · rintro ⟨before, name, σ, later, hsteps, hk, rfl⟩
    rcases List.eq_nil_or_concat later with rfl | ⟨later, last, rfl⟩
    · obtain ⟨-, hlast⟩ := List.append_inj' hsteps rfl
      exact .inl ⟨name, σ, List.singleton_inj.1 hlast, (Option.some.inj hk).symm, rfl⟩
    · rw [List.concat_eq_append, ← List.cons_append, ← List.append_assoc] at hsteps
      obtain ⟨rfl, hlast⟩ := List.append_inj' hsteps rfl
      obtain rfl := List.singleton_inj.1 hlast
      rw [List.concat_eq_append, above?_concat] at hk
      obtain ⟨j, hj, hrise⟩ := Option.bind_eq_some_iff.1 hk
      refine .inr ⟨j, _, ⟨before, name, σ, later, rfl, hj, rfl⟩, hrise, ?_⟩
      rw [List.concat_eq_append, equations_concat, Scheme.apply_append]
  · rintro (⟨name, σ, rfl, rfl, rfl⟩ | ⟨j, d, ⟨before, name, σ, later, rfl, hj, rfl⟩, hrise, rfl⟩)
    · exact ⟨steps, name, σ, [], rfl, rfl, rfl⟩
    · refine ⟨before, name, σ, later ++ [step], by simp, ?_, ?_⟩
      · rw [above?_concat, hj]
        exact hrise
      · rw [equations_concat, Scheme.apply_append]

/-- What a step makes of the entries: each one moves up or down, with the equations of the step
applied, and a new one may come on top. -/
theorem getElem?_step? {env' : Env} (h : env.step? step = some env') :
    env'[k]? = some e ↔ (∃ name σ, step = .push name σ ∧ k = 0 ∧ e = ⟨name, σ⟩) ∨
      ∃ j d, env[j]? = some d ∧ rise? j step = some k ∧
        e = ⟨d.name, d.scheme.apply (equations [step])⟩ := by
  have hnil (d : Entry) : (⟨d.name, d.scheme.apply []⟩ : Entry) = d := rfl
  cases step with
  | push name σ =>
    obtain rfl := Option.some.inj h
    cases k with
    | zero => simp [push, rise?, eq_comm]
    | succ k => simp [push, rise?, equations, hnil]
  | pop =>
    obtain _ | ⟨d, env⟩ := env
    · cases h
    · obtain rfl := Option.some.inj h
      have hrise (j : Nat) : rise? j .pop = some k ↔ j = k + 1 := by
        cases j <;> simp [rise?]
      simp [hrise, equations, hnil]
  | apply s =>
    obtain rfl := Option.some.inj h
    simp [apply, rise?, equations, eq_comm]

/-- **Where the entries of an environment come from.** Its entries are those that were pushed and
not taken away since, most recent first, each with all equations applied that came after it. -/
theorem getElem?_after? (h : after? steps = some env) :
    env[k]? = some e ↔ Remains steps k e := by
  induction steps using List.reverseRecOn generalizing env k e with
  | nil =>
    obtain rfl := Option.some.inj h
    refine iff_of_false (by simp) ?_
    rintro ⟨before, name, σ, later, hsteps, -⟩
    simp at hsteps
  | append_singleton steps step ih =>
    rw [after?_concat] at h
    obtain ⟨env, henv, hstep⟩ := Option.bind_eq_some_iff.1 h
    simp only [getElem?_step? hstep, remains_concat, ih henv]

theorem mem_bound_generalize_iff {t : Ty} {v : Int} : v ∈ (env.generalize t).bound ↔
    t.occurs v = true ∧ ¬ ∃ e ∈ env, e.scheme.body.occurs v = true ∧ ¬ v ∈ e.scheme.bound := by
  simp only [mem_bound_generalize, mem_freeVars, Scheme.mem_freeVars, Ty.occurs_iff]

/-- **Generalization is exact.** In an environment that any steps have made, a variable is
quantified if and only if it occurs in the type and no entry, hidden ones included, has it in its
body without quantifying it. The quantified variables are listed in increasing order, and the body
is the type. The entries are those that were pushed and have not been taken away; their bodies have
changed with the substitutions since, and what they quantify has not. -/
theorem bound_generalize_of_steps (h : after? steps = some env) (t : Ty) :
    (∀ v, v ∈ (env.generalize t).bound ↔
      t.occurs v = true ∧ ¬ ∃ e ∈ env, e.scheme.body.occurs v = true ∧ ¬ v ∈ e.scheme.bound) ∧
    (env.generalize t).bound.ids.Pairwise (· < ·) ∧ (env.generalize t).body = t ∧
    ∀ e, e ∈ env ↔ ∃ k, Remains steps k e := by
  refine ⟨fun v => mem_bound_generalize_iff, VarSet.sorted _, rfl, fun e => ?_⟩
  rw [List.mem_iff_getElem?]
  exact exists_congr fun k => getElem?_after? h

/-- A variable is hidden by another one of its name, an entry is taken away, and two substitutions
are applied. -/
def reworked : List Step :=
  [.push "x" (.mono (.var 0)), .apply [⟨0, .var 3⟩], .push "f" ⟨.ofList [1], .arrow [.var 1] .int⟩,
    .push "y" (.mono (.var 7)), .pop, .push "x" (.mono (.var 2)), .apply [⟨1, .var 4⟩, ⟨2, .var 5⟩]]

theorem bound_generalize_of_steps_reworked : ∃ env,
    after? reworked = some env ∧ env.map (·.name) = ["x", "f", "x"] ∧
      (∀ v, v ∈ (env.generalize (.tuple [.var 7, .var 5, .var 3, .var 2, .var 1])).bound ↔
        v ∈ [7, 5, 3, 2, 1] ∧
          ¬ ∃ e ∈ env, e.scheme.body.occurs v = true ∧ ¬ v ∈ e.scheme.bound) ∧
      (env.generalize (.tuple [.var 7, .var 5, .var 3, .var 2, .var 1])).bound.ids = [1, 2, 7] := by
  refine ⟨_, rfl, by decide, fun v => ?_, by decide⟩
  have hoccurs : (Ty.tuple [.var 7, .var 5, .var 3, .var 2, .var 1]).occurs v = true ↔
      v ∈ [7, 5, 3, 2, 1] := Ty.occurs_iff
  rw [← hoccurs]
  have hafter : after? reworked = some _ := rfl
  exact (bound_generalize_of_steps hafter _).1 v

end Env

end LetPoly
