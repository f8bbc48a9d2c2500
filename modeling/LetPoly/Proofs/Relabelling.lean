import LetPoly.Proofs.Typing
import LetPoly.Proofs.Unification
import Mathlib.Data.Int.Order.Basic
import Mathlib.Logic.Equiv.Basic
import Mathlib.Order.Monotone.Basic

/-!
# Relabelling

Ids are only names: what a type, a substitution or an environment says does not depend on which ids
it is written with. A function on ids acts on everything that is built from them, and as long as it
keeps different ids apart, the operations on types, the search of unification, and generalization
commute with it.

## Main definitions

* `Ty.relabel`, `Equation.relabel`, `Subst.relabel`, `Constraint.relabel`, `Solution.relabel`,
  `VarSet.relabel`, `Scheme.relabel`, `Env.relabel`, `Binding.relabel`, `Expr.relabel`: the same
  thing with other ids.

## Main results

* `Ty.relabel_apply`: applying a substitution commutes with relabelling.
* `solve_relabel`: so does the search of unification.
* `Scheme.relabel_apply`, `Env.relabel_generalize`: so do substitution in schemes and
  generalization.
* `exists_perm_of_subst`: what can be turned back is a renaming.
-/

namespace LetPoly

open Function (Injective)

/-! ### Types -/

namespace Ty

variable {f : Int → Int} {t u : Ty} {v w : Int}

/-- The type with the id `f v` in place of every id `v`. -/
def relabel (f : Int → Int) (t : Ty) : Ty :=
  t.subst fun v => .var (f v)

@[simp] theorem relabel_absent : absent.relabel f = .absent := rfl

@[simp] theorem relabel_const (n : String) : (const n).relabel f = .const n := rfl

@[simp] theorem relabel_var : (var v).relabel f = .var (f v) := rfl

@[simp] theorem relabel_arrow (args : List Ty) (ret : Ty) :
    (arrow args ret).relabel f = .arrow (args.map (·.relabel f)) (ret.relabel f) :=
  subst_arrow _ _ _

@[simp] theorem relabel_tuple (elems : List Ty) :
    (tuple elems).relabel f = .tuple (elems.map (·.relabel f)) :=
  subst_tuple _ _

theorem mem_vars_relabel : w ∈ (t.relabel f).vars ↔ ∃ v ∈ t.vars, f v = w := by
  rw [relabel, mem_vars_subst]
  simp only [mem_vars_var, eq_comm]

/-- Different ids stay different, so an id occurs where it occurred before. -/
theorem mem_vars_relabel_iff (hf : Injective f) : f v ∈ (t.relabel f).vars ↔ v ∈ t.vars := by
  rw [mem_vars_relabel]
  constructor
  · rintro ⟨u, hu, he⟩
    exact hf he ▸ hu
  · exact fun hv => ⟨v, hv, rfl⟩

theorem relabel_eq_self (h : ∀ v ∈ t.vars, f v = v) : t.relabel f = t :=
  subst_eq_self fun v hv => congrArg Ty.var (h v hv)

theorem subst_relabel (σ : Int → Ty) (t : Ty) : (t.relabel f).subst σ = t.subst fun v => σ (f v) :=
  subst_subst _ _ t

theorem relabel_subst (σ : Int → Ty) (t : Ty) :
    (t.subst σ).relabel f = t.subst fun v => (σ v).relabel f :=
  subst_subst _ _ t

theorem relabel_eq_var : t.relabel f = .var w ↔ ∃ v, t = .var v ∧ f v = w := by
  cases t <;> simp

/-- Only a variable can turn into a variable. -/
theorem exists_var_of_subst {σ : Int → Ty} (h : t.subst σ = .var w) :
    ∃ v, t = .var v ∧ σ v = .var w := by
  cases t with
  | var v => exact ⟨v, rfl, h⟩
  | absent | const _ => cases h
  | arrow args ret =>
    rw [subst_arrow] at h
    cases h
  | tuple elems =>
    rw [subst_tuple] at h
    cases h

theorem isAbsent_relabel (t : Ty) : (t.relabel f).isAbsent = t.isAbsent := by
  cases t <;> simp [isAbsent]

/-- Replacing a variable commutes with relabelling. -/
theorem relabel_replace (hf : Injective f) (t : Ty) (v : Int) (u : Ty) :
    (t.replace v u).relabel f = (t.relabel f).replace (f v) (u.relabel f) := by
  rw [replace, replace, relabel_subst, subst_relabel]
  refine subst_congr fun w _ => ?_
  by_cases h : w = v
  · rw [single, single, if_pos h, if_pos (congrArg f h)]
  · rw [single, single, if_neg h, if_neg fun e => h (hf e), relabel_var]

end Ty

/-! ### Substitutions -/

variable {f : Int → Int}

/-- The equation between the relabelled sides. -/
def Equation.relabel (f : Int → Int) (q : Equation) : Equation :=
  ⟨f q.var, q.type.relabel f⟩

/-- The substitution with all its equations relabelled. -/
def Subst.relabel (f : Int → Int) (s : Subst) : Subst :=
  s.map (·.relabel f)

@[simp] theorem Subst.relabel_append (s d : Subst) :
    Subst.relabel f (s ++ d) = s.relabel f ++ d.relabel f :=
  List.map_append

/-- Applying a substitution commutes with relabelling. -/
theorem Ty.relabel_apply (hf : Injective f) (t : Ty) (s : Subst) :
    (t.apply s).relabel f = (t.relabel f).apply (s.relabel f) := by
  induction s generalizing t with
  | nil => rfl
  | cons q s ih =>
    rw [Ty.apply_cons, ih, Ty.relabel_replace hf]
    rfl

/-! ### Unification -/

/-- The constraint between the relabelled sides. -/
def Constraint.relabel (f : Int → Int) (c : Constraint) : Constraint :=
  ⟨c.left.relabel f, c.right.relabel f⟩

/-- The same failure with other ids in its types. -/
def TypeError.relabel (f : Int → Int) (e : TypeError) : TypeError :=
  ⟨e.kind, e.left.relabel f, e.right.relabel f⟩

/-- The same outcome with other ids in its types. -/
def Solution.relabel (f : Int → Int) (r : Solution) : Solution :=
  ⟨r.solved.relabel f, r.failure.map (·.relabel f)⟩

theorem Constraint.relabel_replace (hf : Injective f) (c : Constraint) (v : Int) (u : Ty) :
    (c.replace v u).relabel f = (c.relabel f).replace (f v) (u.relabel f) := by
  simp only [replace, relabel, Ty.relabel_replace hf]

theorem Constraint.map_relabel_replaceAll (hf : Injective f) (cs : List Constraint) (v : Int)
    (u : Ty) :
    (replaceAll cs v u).map (·.relabel f) =
      replaceAll (cs.map (·.relabel f)) (f v) (u.relabel f) := by
  rw [replaceAll, replaceAll, List.map_map, List.map_map]
  exact List.map_congr_left fun c _ => c.relabel_replace hf v u

theorem Constraint.map_relabel_between (as bs : List Ty) :
    (between as bs).map (·.relabel f) =
      between (as.map (·.relabel f)) (bs.map (·.relabel f)) := by
  simp only [between, List.map_reverse, List.map_zipWith, List.zipWith_map]
  rfl

/-! #### Clashes -/

/-- Neither type is a variable, and the two do not start with the same constructor; a missing type
has none. -/
def Ty.clashes : Ty → Ty → Bool
  | .var _, _ => false
  | _, .var _ => false
  | .const _, .const _ => false
  | .arrow _ _, .arrow _ _ => false
  | .tuple _, .tuple _ => false
  | _, _ => true

theorem Ty.clashes_of_forall {a b : Ty} (hvar : ∀ v, a = .var v → False)
    (hvar' : ∀ v, b = .var v → False) (hconst : ∀ m n, a = .const m → b = .const n → False)
    (harrow : ∀ as r bs s, a = .arrow as r → b = .arrow bs s → False)
    (htuple : ∀ as bs, a = .tuple as → b = .tuple bs → False) : a.clashes b = true := by
  cases a <;> cases b <;> grind [clashes]

theorem Ty.clashes_relabel (a b : Ty) : (a.relabel f).clashes (b.relabel f) = a.clashes b := by
  cases a <;> cases b <;> simp [clashes]

theorem Ty.clashes_comm (a b : Ty) : a.clashes b = b.clashes a := by
  cases a <;> cases b <;> rfl

theorem solve_of_clashes {a b : Ty} (h : a.clashes b = true) (rest : List Constraint) :
    solve (⟨a, b⟩ :: rest) = ⟨[], some ⟨.mismatch, a, b⟩⟩ := by
  cases a <;> cases b <;> simp_all [Ty.clashes, solve]

/-- The search takes the same steps whatever the ids are. -/
theorem solve_relabel (hf : Injective f) (cs : List Constraint) :
    solve (cs.map (·.relabel f)) = (solve cs).relabel f := by
  fun_induction solve cs with
  | case1 =>
    rw [List.map_nil, solve]
    rfl
  | case2 v rest ih =>
    rw [List.map_cons, Constraint.relabel, Ty.relabel_var, solve, if_pos rfl, ih]
  | case3 v t rest hne hv =>
    have hne' : t.relabel f ≠ .var (f v) := fun e => by
      obtain ⟨w, rfl, hw⟩ := Ty.relabel_eq_var.1 e
      exact hne (congrArg Ty.var (hf hw))
    rw [List.map_cons, Constraint.relabel, Ty.relabel_var, solve, if_neg hne',
      dif_pos ((Ty.mem_vars_relabel_iff hf).2 hv)]
    rfl
  | case4 v t rest hne hv r ih =>
    have hne' : t.relabel f ≠ .var (f v) := fun e => by
      obtain ⟨w, rfl, hw⟩ := Ty.relabel_eq_var.1 e
      exact hne (congrArg Ty.var (hf hw))
    rw [List.map_cons, Constraint.relabel, Ty.relabel_var, solve, if_neg hne',
      dif_neg (mt (Ty.mem_vars_relabel_iff hf).1 hv), ← Constraint.map_relabel_replaceAll hf, ih]
    rfl
  | case5 t v rest hvar hv =>
    rw [List.map_cons, Constraint.relabel, Ty.relabel_var, solve,
      dif_pos ((Ty.mem_vars_relabel_iff hf).2 hv)]
    · rfl
    · intro w e
      obtain ⟨u, rfl, -⟩ := Ty.relabel_eq_var.1 e
      exact hvar u rfl
  | case6 t v rest hvar hv r ih =>
    rw [List.map_cons, Constraint.relabel, Ty.relabel_var, solve,
      dif_neg (mt (Ty.mem_vars_relabel_iff hf).1 hv), ← Constraint.map_relabel_replaceAll hf, ih]
    · rfl
    · intro w e
      obtain ⟨u, rfl, -⟩ := Ty.relabel_eq_var.1 e
      exact hvar u rfl
  | case7 n rest ih =>
    rw [List.map_cons, Constraint.relabel, Ty.relabel_const, solve, if_pos rfl, ih]
  | case8 m n rest hne =>
    rw [List.map_cons, Constraint.relabel, Ty.relabel_const, Ty.relabel_const, solve, if_neg hne]
    rfl
  | case9 as r bs s rest ih =>
    rw [List.map_cons, Constraint.relabel, Ty.relabel_arrow, Ty.relabel_arrow, solve, ← ih,
      List.map_cons, List.map_cons, Constraint.relabel, Ty.relabel_tuple, Ty.relabel_tuple]
    rfl
  | case10 as bs rest hlen ih =>
    rw [List.map_cons, Constraint.relabel, Ty.relabel_tuple, Ty.relabel_tuple, solve,
      if_pos (by simpa using hlen), ← ih, List.map_append, Constraint.map_relabel_between]
  | case11 as bs rest hlen =>
    rw [List.map_cons, Constraint.relabel, Ty.relabel_tuple, Ty.relabel_tuple, solve,
      if_neg (by simpa using hlen), Solution.relabel, Option.map_some, TypeError.relabel,
      Ty.relabel_tuple, Ty.relabel_tuple]
    rfl
  | case12 a b rest hvar hvar' hconst harrow htuple =>
    have hclash : a.clashes b = true :=
      Ty.clashes_of_forall hvar hvar' hconst harrow htuple
    rw [List.map_cons, Constraint.relabel, solve_of_clashes (Ty.clashes_relabel a b ▸ hclash)]
    rfl

/-! ### Sets of ids -/

namespace VarSet

variable {s : VarSet} {v w : Int}

/-- The set of the ids `f v`. -/
def relabel (f : Int → Int) (s : VarSet) : VarSet :=
  .ofList (s.ids.map f)

@[simp] theorem mem_relabel : w ∈ s.relabel f ↔ ∃ v, v ∈ s ∧ f v = w := by
  rw [relabel, mem_ofList, List.mem_map]
  rfl

theorem mem_relabel_iff (hf : Injective f) : f v ∈ s.relabel f ↔ v ∈ s := by
  rw [mem_relabel]
  constructor
  · rintro ⟨u, hu, he⟩
    exact hf he ▸ hu
  · exact fun hv => ⟨v, hv, rfl⟩

theorem relabel_congr {g : Int → Int} (h : ∀ v, v ∈ s → f v = g v) :
    s.relabel f = s.relabel g :=
  congrArg VarSet.ofList (List.map_congr_left h)

/-- A function that keeps the order of ids keeps the order of the members. -/
theorem ids_relabel (hf : StrictMono f) (s : VarSet) : (s.relabel f).ids = s.ids.map f := by
  have heq : s.relabel f =
      .ofSorted (s.ids.map f) (List.pairwise_map.2 (s.sorted.imp fun h => hf h)) :=
    VarSet.ext fun w => by
      rw [mem_relabel, mem_def, ids_ofSorted, List.mem_map]
      rfl
  rw [heq, ids_ofSorted]

end VarSet

/-! ### Schemes -/

namespace Scheme

variable {w : Int}

/-- The scheme with other ids, quantified and free. -/
def relabel (f : Int → Int) (σ : Scheme) : Scheme :=
  ⟨σ.bound.relabel f, σ.body.relabel f⟩

@[simp] theorem relabel_mono (t : Ty) : (mono t).relabel f = mono (t.relabel f) := rfl

theorem relabel_eq_self {σ : Scheme} (hbody : ∀ v ∈ σ.body.vars, f v = v)
    (hbound : ∀ v, v ∈ σ.bound → f v = v) : σ.relabel f = σ := by
  have hsame : σ.bound.relabel f = σ.bound := VarSet.ext fun w => by
    rw [VarSet.mem_relabel]
    constructor
    · rintro ⟨v, hv, rfl⟩
      rwa [hbound v hv]
    · exact fun hw => ⟨w, hw, hbound w hw⟩
  rw [relabel, hsame, Ty.relabel_eq_self hbody]

theorem mem_freeVars_relabel (hf : Injective f) {σ : Scheme} :
    w ∈ (σ.relabel f).freeVars ↔ ∃ v, v ∈ σ.freeVars ∧ f v = w := by
  simp only [mem_freeVars, relabel, Ty.mem_vars_relabel]
  constructor
  · rintro ⟨⟨v, hv, rfl⟩, hb⟩
    exact ⟨v, ⟨hv, mt (VarSet.mem_relabel_iff hf).2 hb⟩, rfl⟩
  · rintro ⟨v, ⟨hv, hb⟩, rfl⟩
    exact ⟨⟨v, hv, rfl⟩, mt (VarSet.mem_relabel_iff hf).1 hb⟩

/-- The instances of a relabelled scheme. -/
theorem inst_relabel (hf : Injective f) (σ : Scheme) (ρ θ : Int → Ty) :
    (σ.relabel f).inst ρ θ = σ.inst (fun v => ρ (f v)) fun v => θ (f v) := by
  rw [inst, inst, relabel, Ty.subst_relabel]
  refine Ty.subst_congr fun v _ => ?_
  by_cases hb : v ∈ σ.bound
  · rw [if_pos hb, if_pos ((VarSet.mem_relabel_iff hf).2 hb)]
  · rw [if_neg hb, if_neg (mt (VarSet.mem_relabel_iff hf).1 hb)]

/-- Substitution in a scheme commutes with relabelling. -/
theorem relabel_apply (hf : Injective f) (σ : Scheme) (s : Subst) :
    (σ.apply s).relabel f = (σ.relabel f).apply (s.relabel f) := by
  have hfilter : (s.relabel f).filter (fun q => !(σ.relabel f).bound.contains q.var) =
      Subst.relabel f (s.filter fun q => !σ.bound.contains q.var) := by
    rw [Subst.relabel, Subst.relabel, List.filter_map]
    congr 1
    refine List.filter_congr fun q _ => congrArg (!·) ?_
    rw [VarSet.contains_eq_decide, VarSet.contains_eq_decide]
    exact decide_eq_decide.2 (VarSet.mem_relabel_iff hf)
  rw [apply, apply, hfilter, relabel, Ty.relabel_apply hf]
  rfl

end Scheme

/-! ### Environments -/

namespace Env

variable {w : Int}

/-- The environment with other ids in its schemes. -/
def relabel (f : Int → Int) (env : Env) : Env :=
  env.map fun x => { x with scheme := x.scheme.relabel f }

@[simp] theorem relabel_push (env : Env) (x : String) (σ : Scheme) :
    (env.push x σ).relabel f = (env.relabel f).push x (σ.relabel f) := rfl

theorem relabel_extend {gen gen' : Ty → Scheme} (env : Env) (xs : List String) (ts : List Ty)
    (h : ∀ t ∈ ts, (gen t).relabel f = gen' (t.relabel f)) :
    (env.extend gen xs ts).relabel f = (env.relabel f).extend gen' xs (ts.map (·.relabel f)) := by
  induction xs generalizing env ts with
  | nil => rfl
  | cons x xs ih =>
    obtain _ | ⟨t, ts⟩ := ts
    · rfl
    · rw [List.forall_mem_cons] at h
      rw [List.map_cons, extend, extend, ih _ ts h.2, relabel_push, h.1]

theorem lookup_relabel (env : Env) (x : String) :
    (env.relabel f).lookup x = (env.lookup x).map (·.relabel f) := by
  simp only [lookup, relabel, List.find?_map, Option.map_map]
  rfl

theorem mem_freeVars_relabel (hf : Injective f) {env : Env} :
    w ∈ (env.relabel f).freeVars ↔ ∃ v, v ∈ env.freeVars ∧ f v = w := by
  simp only [mem_freeVars, relabel, List.mem_map]
  constructor
  · rintro ⟨_, ⟨x, hx, rfl⟩, hw⟩
    obtain ⟨v, hv, rfl⟩ := (Scheme.mem_freeVars_relabel hf).1 hw
    exact ⟨v, ⟨x, hx, hv⟩, rfl⟩
  · rintro ⟨v, ⟨x, hx, hv⟩, rfl⟩
    exact ⟨_, ⟨x, hx, rfl⟩, (Scheme.mem_freeVars_relabel hf).2 ⟨v, hv, rfl⟩⟩

theorem relabel_apply (hf : Injective f) (env : Env) (s : Subst) :
    (env.apply s).relabel f = (env.relabel f).apply (s.relabel f) := by
  simp only [apply, relabel, List.map_map, Function.comp_def, Scheme.relabel_apply hf]

/-- Generalization commutes with relabelling. -/
theorem relabel_generalize (hf : Injective f) (env : Env) (t : Ty) :
    (env.generalize t).relabel f = (env.relabel f).generalize (t.relabel f) := by
  refine congrArg (Scheme.mk · (t.relabel f)) (VarSet.ext fun w => ?_)
  change w ∈ (env.generalize t).bound.relabel f ↔
    w ∈ ((env.relabel f).generalize (t.relabel f)).bound
  rw [VarSet.mem_relabel, @mem_bound_generalize (env.relabel f), Ty.mem_vars_relabel,
    mem_freeVars_relabel hf]
  simp only [mem_bound_generalize]
  constructor
  · rintro ⟨v, ⟨hv, hfree⟩, rfl⟩
    exact ⟨⟨v, hv, rfl⟩, fun ⟨u, hu, he⟩ => hfree (hf he ▸ hu)⟩
  · rintro ⟨⟨v, hv, rfl⟩, hfree⟩
    exact ⟨v, ⟨hv, fun h => hfree ⟨v, h, rfl⟩⟩, rfl⟩

end Env

/-! ### Trees -/

/-- The binding with other ids in its slot. -/
def Binding.relabel (f : Int → Int) (b : Binding) : Binding :=
  { b with slot := b.slot.relabel f }

theorem Binding.mapSlot_relabel (b : Binding) : b.mapSlot (Ty.relabel f) = b.relabel f := by
  obtain ⟨name, slot⟩ := b
  cases slot <;> rfl

theorem Binding.map_slot_relabel (bs : List Binding) :
    (bs.map (·.relabel f)).map (·.slot) = (bs.map (·.slot)).map (·.relabel f) := by
  rw [List.map_map, List.map_map]
  rfl

/-- The tree with other ids in its slots. -/
def Expr.relabel (f : Int → Int) (e : Expr) : Expr :=
  e.mapSlots (Ty.relabel f)

/-! ### Renamings -/

/-- A function that keeps finitely many ids apart is a permutation on them. -/
theorem exists_perm (f : Int → Int) (vs : List Int)
    (hf : ∀ v ∈ vs, ∀ w ∈ vs, f v = f w → v = w) :
    ∃ π : Equiv.Perm Int, ∀ v ∈ vs, π v = f v := by
  induction vs with
  | nil => exact ⟨Equiv.refl Int, fun _ hv => absurd hv List.not_mem_nil⟩
  | cons v vs ih =>
    obtain ⟨π, hπ⟩ := ih fun a ha b hb =>
      hf a (List.mem_cons_of_mem _ ha) b (List.mem_cons_of_mem _ hb)
    refine ⟨π.trans (Equiv.swap (π v) (f v)), fun w hw => ?_⟩
    rw [Equiv.trans_apply]
    by_cases hwv : w = v
    · rw [hwv, Equiv.swap_apply_left]
    · have hmem : w ∈ vs := (List.mem_cons.1 hw).resolve_left hwv
      have hne : f w ≠ π v := fun e => hwv (π.injective ((hπ w hmem).trans e))
      rw [hπ w hmem, Equiv.swap_apply_of_ne_of_ne hne fun e => hwv (hf w hw v List.mem_cons_self e)]

/-- A substitution that can be turned back renames the variables. -/
theorem exists_perm_of_subst {θ η : Int → Ty} {vs : List Int}
    (h : ∀ v ∈ vs, (θ v).subst η = .var v) :
    ∃ π : Equiv.Perm Int, ∀ v ∈ vs, θ v = .var (π v) := by
  have hvar : ∀ v, ∃ w, v ∈ vs → θ v = .var w := by
    intro v
    by_cases hv : v ∈ vs
    · obtain ⟨w, hw, -⟩ := Ty.exists_var_of_subst (h v hv)
      exact ⟨w, fun _ => hw⟩
    · exact ⟨v, fun hv' => absurd hv' hv⟩
  choose f hf using hvar
  obtain ⟨π, hπ⟩ := exists_perm f vs fun v hv w hw hvw => by
    have heq : θ v = θ w := by rw [hf v hv, hf w hw, hvw]
    exact Ty.var.inj ((h v hv).symm.trans (heq ▸ h w hw))
  exact ⟨π, fun v hv => by rw [hf v hv, hπ v hv]⟩

end LetPoly
