import LetPoly.Unification
import Mathlib

/-!
# Laws of substitution

A replacement of all variables at once is a function from ids to types, extended to types by
`Ty.subst`. This file collects its laws, reads a list of equations as one such function, and singles
out the lists for which applying the equations one after the other loses nothing.

## Main definitions

* `Ty.Complete`: no type is missing inside.
* `Ty.Within`, `Subst.Within`: all ids satisfy a predicate.
* `Subst.eval`: the function that a list of equations stands for.
* `Subst.Triangular`: no equation mentions its own id or one that an earlier equation binds.
* `Subst.Solves`: a function that makes both sides of every equation equal.

## Main results

* `Ty.apply_eq_subst`: applying a list is replacing all variables at once.
* `Subst.Triangular.apply_apply`: a triangular list resolves a type once and for all.
* `Subst.Solves.subst_apply`: a solution does not see the equations it solves.
-/

namespace LetPoly

namespace Ty

/-! ### Induction -/

/-- Induction over types, with one hypothesis for each component of a list. -/
@[elab_as_elim] theorem ind {motive : Ty → Prop} (absent : motive .absent)
    (const : ∀ n, motive (.const n)) (var : ∀ v, motive (.var v))
    (arrow : ∀ args ret, (∀ a ∈ args, motive a) → motive ret → motive (.arrow args ret))
    (tuple : ∀ elems, (∀ a ∈ elems, motive a) → motive (.tuple elems)) (t : Ty) : motive t :=
  @Ty.rec motive (fun ts => ∀ a ∈ ts, motive a) absent const var arrow tuple
    (fun _ h => absurd h List.not_mem_nil) (fun _ _ ht hts => List.forall_mem_cons.2 ⟨ht, hts⟩) t

theorem substAll_eq_map (σ : Int → Ty) (ts : List Ty) : substAll σ ts = ts.map (·.subst σ) := by
  induction ts with
  | nil => rfl
  | cons t ts ih => rw [substAll, ih, List.map_cons]

@[simp] theorem subst_const (σ : Int → Ty) (n : String) : (const n).subst σ = .const n := rfl

@[simp] theorem subst_var (σ : Int → Ty) (v : Int) : (var v).subst σ = σ v := rfl

@[simp] theorem subst_arrow (σ : Int → Ty) (args : List Ty) (ret : Ty) :
    (arrow args ret).subst σ = .arrow (args.map (·.subst σ)) (ret.subst σ) := by
  rw [subst, substAll_eq_map]

@[simp] theorem subst_tuple (σ : Int → Ty) (elems : List Ty) :
    (tuple elems).subst σ = .tuple (elems.map (·.subst σ)) := by
  rw [subst, substAll_eq_map]

@[simp] theorem mem_vars_var {v w : Int} : w ∈ (var v).vars ↔ w = v :=
  List.mem_singleton

@[simp] theorem mem_vars_arrow {v : Int} {args : List Ty} {ret : Ty} :
    v ∈ (arrow args ret).vars ↔ (∃ a ∈ args, v ∈ a.vars) ∨ v ∈ ret.vars := by
  rw [vars, List.mem_append, Constraint.mem_varsAll]

@[simp] theorem mem_vars_tuple {v : Int} {elems : List Ty} :
    v ∈ (tuple elems).vars ↔ ∃ a ∈ elems, v ∈ a.vars := by
  rw [vars, Constraint.mem_varsAll]

/-! ### Replacing all variables -/

/-- Functions that agree on the variables of a type agree on the type. -/
theorem subst_congr {σ τ : Int → Ty} {t : Ty} (h : ∀ v ∈ t.vars, σ v = τ v) :
    t.subst σ = t.subst τ := by
  induction t using Ty.ind with
  | absent => rfl
  | const n => rfl
  | var v => exact h v (mem_vars_var.2 rfl)
  | arrow args ret iha ihr =>
    rw [subst_arrow, subst_arrow, ihr fun v hv => h v (mem_vars_arrow.2 (.inr hv))]
    congr 1
    exact List.map_congr_left fun a ha => iha a ha fun v hv =>
      h v (mem_vars_arrow.2 (.inl ⟨a, ha, hv⟩))
  | tuple elems ih =>
    rw [subst_tuple, subst_tuple]
    congr 1
    exact List.map_congr_left fun a ha => ih a ha fun v hv => h v (mem_vars_tuple.2 ⟨a, ha, hv⟩)

/-- A function that fixes the variables of a type fixes the type. -/
theorem subst_eq_self {σ : Int → Ty} {t : Ty} (h : ∀ v ∈ t.vars, σ v = .var v) :
    t.subst σ = t := by
  induction t using Ty.ind with
  | absent => rfl
  | const n => rfl
  | var v => exact h v (mem_vars_var.2 rfl)
  | arrow args ret iha ihr =>
    rw [subst_arrow, ihr fun v hv => h v (mem_vars_arrow.2 (.inr hv))]
    congr 1
    exact (List.map_congr_left fun a ha => iha a ha fun v hv =>
      h v (mem_vars_arrow.2 (.inl ⟨a, ha, hv⟩))).trans (List.map_id' args)
  | tuple elems ih =>
    rw [subst_tuple]
    congr 1
    exact (List.map_congr_left fun a ha => ih a ha fun v hv =>
      h v (mem_vars_tuple.2 ⟨a, ha, hv⟩)).trans (List.map_id' elems)

/-- Functions that agree on a type agree on its variables. -/
theorem forall_of_subst_eq {σ τ : Int → Ty} {t : Ty} (h : t.subst σ = t.subst τ) :
    ∀ v ∈ t.vars, σ v = τ v := by
  induction t using Ty.ind with
  | absent | const _ => exact fun _ hv => absurd hv List.not_mem_nil
  | var v => exact fun w hw => mem_vars_var.1 hw ▸ h
  | arrow args ret iha ihr =>
    rw [subst_arrow, subst_arrow] at h
    obtain ⟨hargs, hret⟩ := Ty.arrow.inj h
    intro v hv
    rcases mem_vars_arrow.1 hv with ⟨a, ha, hva⟩ | hv
    · exact iha a ha (List.map_inj_left.1 hargs a ha) v hva
    · exact ihr hret v hv
  | tuple elems ih =>
    rw [subst_tuple, subst_tuple] at h
    intro v hv
    obtain ⟨a, ha, hva⟩ := mem_vars_tuple.1 hv
    exact ih a ha (List.map_inj_left.1 (Ty.tuple.inj h) a ha) v hva

/-- A function that fixes a type fixes its variables. -/
theorem forall_of_subst_eq_self {σ : Int → Ty} {t : Ty} (h : t.subst σ = t) :
    ∀ v ∈ t.vars, σ v = .var v :=
  forall_of_subst_eq (h.trans (subst_eq_self fun _ _ => rfl).symm)

/-- Two replacements in a row are one. -/
theorem subst_subst (σ τ : Int → Ty) (t : Ty) :
    (t.subst σ).subst τ = t.subst fun v => (σ v).subst τ := by
  induction t using Ty.ind with
  | absent => rfl
  | const n => rfl
  | var v => rfl
  | arrow args ret iha ihr =>
    rw [subst_arrow, subst_arrow, subst_arrow, ihr, List.map_map]
    congr 1
    exact List.map_congr_left iha
  | tuple elems ih =>
    rw [subst_tuple, subst_tuple, subst_tuple, List.map_map]
    congr 1
    exact List.map_congr_left ih

/-! ### Complete types -/

mutual

/-- Is no type missing inside? -/
def isComplete : Ty → Bool
  | .absent => false
  | .const _ => true
  | .var _ => true
  | .arrow args ret => allComplete args && ret.isComplete
  | .tuple elems => allComplete elems

/-- Is no type missing inside any type of a list? -/
def allComplete : List Ty → Bool
  | [] => true
  | t :: ts => t.isComplete && allComplete ts

end

/-- No type is missing inside. -/
def Complete (t : Ty) : Prop :=
  t.isComplete = true

instance (t : Ty) : Decidable t.Complete :=
  inferInstanceAs (Decidable (t.isComplete = true))

theorem allComplete_iff (ts : List Ty) : allComplete ts = true ↔ ∀ t ∈ ts, t.Complete := by
  induction ts with
  | nil => simp [allComplete]
  | cons t ts ih => simp only [allComplete, Bool.and_eq_true, ih, List.forall_mem_cons, Complete]

@[simp] theorem not_complete_absent : ¬ absent.Complete := by
  simp [Complete, isComplete]

@[simp] theorem complete_const (n : String) : (const n).Complete := rfl

@[simp] theorem complete_var (v : Int) : (var v).Complete := rfl

@[simp] theorem complete_arrow {args : List Ty} {ret : Ty} :
    (arrow args ret).Complete ↔ (∀ a ∈ args, a.Complete) ∧ ret.Complete := by
  rw [Complete, isComplete, Bool.and_eq_true, allComplete_iff, Complete]

@[simp] theorem complete_tuple {elems : List Ty} :
    (tuple elems).Complete ↔ ∀ a ∈ elems, a.Complete := by
  rw [Complete, isComplete, allComplete_iff]

theorem Complete.isAbsent_eq_false {t : Ty} (h : t.Complete) : t.isAbsent = false := by
  cases t with
  | absent => exact absurd h not_complete_absent
  | _ => rfl

/-- A replacement leaves no hole exactly when there was none before and it puts none in. -/
theorem complete_subst {σ : Int → Ty} {t : Ty} :
    (t.subst σ).Complete ↔ t.Complete ∧ ∀ v ∈ t.vars, (σ v).Complete := by
  induction t using Ty.ind with
  | absent => simp [subst]
  | const n => simp [vars]
  | var v => simp
  | arrow args ret iha ihr =>
    simp only [subst_arrow, complete_arrow, List.forall_mem_map, ihr, mem_vars_arrow]
    constructor
    · rintro ⟨ha, hr, hv⟩
      refine ⟨⟨fun a h => ((iha a h).1 (ha a h)).1, hr⟩, ?_⟩
      rintro v (⟨a, h, hva⟩ | hvr)
      · exact ((iha a h).1 (ha a h)).2 v hva
      · exact hv v hvr
    · rintro ⟨⟨ha, hr⟩, hv⟩
      exact ⟨fun a h => (iha a h).2 ⟨ha a h, fun v hva => hv v (.inl ⟨a, h, hva⟩)⟩,
        hr, fun v hvr => hv v (.inr hvr)⟩
  | tuple elems ih =>
    simp only [subst_tuple, complete_tuple, List.forall_mem_map, mem_vars_tuple]
    constructor
    · intro ha
      refine ⟨fun a h => ((ih a h).1 (ha a h)).1, ?_⟩
      rintro v ⟨a, h, hva⟩
      exact ((ih a h).1 (ha a h)).2 v hva
    · rintro ⟨ha, hv⟩ a h
      exact (ih a h).2 ⟨ha a h, fun v hva => hv v ⟨a, h, hva⟩⟩

mutual

/-- Structural equality holds between a complete type and itself, and nowhere else. -/
theorem equal_iff : (a b : Ty) → (equal a b = true ↔ a = b ∧ a.Complete)
  | .absent, b => by cases b <;> simp [equal]
  | .const _, b => by cases b <;> simp [equal]
  | .var _, b => by cases b <;> simp [equal]
  | .arrow as r, b => by
    cases b with
    | arrow bs s =>
      simp only [equal, Bool.and_eq_true, equalAll_iff as, equal_iff r, arrow.injEq, complete_arrow]
      tauto
    | _ => simp [equal]
  | .tuple as, b => by
    cases b with
    | tuple bs => simp only [equal, equalAll_iff as, tuple.injEq, complete_tuple]
    | _ => simp [equal]

theorem equalAll_iff : (as bs : List Ty) →
    (equalAll as bs = true ↔ as = bs ∧ ∀ a ∈ as, a.Complete)
  | [], bs => by cases bs <;> simp [equalAll]
  | a :: as, bs => by
    cases bs with
    | nil => simp [equalAll]
    | cons b bs =>
      simp only [equalAll, Bool.and_eq_true, equal_iff a, equalAll_iff as, List.cons.injEq,
        List.forall_mem_cons]
      tauto

end

/-! ### Types with ids of one kind -/

/-- All variables of the type satisfy `P`. -/
def Within (P : Int → Prop) (t : Ty) : Prop :=
  ∀ v ∈ t.vars, P v

theorem Within.mono {P Q : Int → Prop} {t : Ty} (h : t.Within P) (hPQ : ∀ v, P v → Q v) :
    t.Within Q :=
  fun v hv => hPQ v (h v hv)

theorem Within.arrow {P : Int → Prop} {args : List Ty} {ret : Ty}
    (ha : ∀ a ∈ args, a.Within P) (hr : ret.Within P) : (Ty.arrow args ret).Within P := by
  intro v hv
  rcases mem_vars_arrow.1 hv with ⟨a, h, hva⟩ | hvr
  · exact ha a h v hva
  · exact hr v hvr

theorem Within.tuple {P : Int → Prop} {elems : List Ty} (h : ∀ a ∈ elems, a.Within P) :
    (Ty.tuple elems).Within P := by
  intro v hv
  obtain ⟨a, ha, hva⟩ := mem_vars_tuple.1 hv
  exact h a ha v hva

theorem Within.subst {P : Int → Prop} {σ : Int → Ty} {t : Ty}
    (h : ∀ v ∈ t.vars, (σ v).Within P) : (t.subst σ).Within P := by
  intro w hw
  obtain ⟨v, hv, hwv⟩ := (mem_vars_subst t).1 hw
  exact h v hv w hwv

end Ty

/-! ### Lists of equations -/

namespace Subst

/-- The type that a list of equations puts in place of a variable. -/
def eval (s : Subst) (v : Int) : Ty :=
  (Ty.var v).apply s

end Subst

/-- Applying equations one after the other replaces every variable by its final type. -/
theorem Ty.apply_eq_subst (t : Ty) (s : Subst) : t.apply s = t.subst s.eval := by
  induction s generalizing t with
  | nil => exact (Ty.subst_eq_self fun _ _ => rfl).symm
  | cons q s ih =>
    rw [Ty.apply_cons, ih, Ty.replace, Ty.subst_subst]
    refine Ty.subst_congr fun v _ => ?_
    rw [Subst.eval, Ty.apply_cons, ih]
    rfl

@[simp] theorem Ty.apply_absent (s : Subst) : Ty.absent.apply s = .absent := by
  rw [Ty.apply_eq_subst, Ty.subst]

@[simp] theorem Ty.apply_const (n : String) (s : Subst) : (Ty.const n).apply s = .const n := by
  rw [Ty.apply_eq_subst, Ty.subst_const]

@[simp] theorem Ty.apply_arrow (args : List Ty) (ret : Ty) (s : Subst) :
    (Ty.arrow args ret).apply s = .arrow (args.map (·.apply s)) (ret.apply s) := by
  simp only [Ty.apply_eq_subst, Ty.subst_arrow]

@[simp] theorem Ty.apply_tuple (elems : List Ty) (s : Subst) :
    (Ty.tuple elems).apply s = .tuple (elems.map (·.apply s)) := by
  simp only [Ty.apply_eq_subst, Ty.subst_tuple]

namespace Subst

theorem eval_append (s d : Subst) (v : Int) : (s ++ d).eval v = (s.eval v).apply d :=
  Ty.apply_append _ s d

/-- A variable without an equation stays. -/
theorem eval_of_forall_ne {s : Subst} {v : Int} (h : ∀ q ∈ s, q.var ≠ v) : s.eval v = .var v := by
  induction s with
  | nil => rfl
  | cons q s ih =>
    rw [List.forall_mem_cons] at h
    rw [eval, Ty.apply_cons, Ty.replace, Ty.subst_var, Ty.single, if_neg (Ne.symm h.1)]
    exact ih h.2

/-! ### Ids of a list of equations -/

/-- All ids that the equations mention, bound ones and others, satisfy `P`. -/
def Within (P : Int → Prop) (s : Subst) : Prop :=
  ∀ q ∈ s, P q.var ∧ q.type.Within P

/-- No type is missing on the right of an equation. -/
def Complete (s : Subst) : Prop :=
  ∀ q ∈ s, q.type.Complete

theorem within_nil (P : Int → Prop) : Within P [] :=
  fun _ h => absurd h List.not_mem_nil

theorem within_append {P : Int → Prop} {s d : Subst} :
    Within P (s ++ d) ↔ Within P s ∧ Within P d :=
  List.forall_mem_append

theorem Within.mono {P Q : Int → Prop} {s : Subst} (h : s.Within P) (hPQ : ∀ v, P v → Q v) :
    s.Within Q :=
  fun q hq => ⟨hPQ _ (h q hq).1, (h q hq).2.mono hPQ⟩

theorem Within.and {P Q : Int → Prop} {s : Subst} (h : s.Within P) (h' : s.Within Q) :
    s.Within fun v => P v ∧ Q v :=
  fun q hq => ⟨⟨(h q hq).1, (h' q hq).1⟩, fun v hv => ⟨(h q hq).2 v hv, (h' q hq).2 v hv⟩⟩

theorem complete_append {s d : Subst} : Complete (s ++ d) ↔ Complete s ∧ Complete d :=
  List.forall_mem_append

end Subst

theorem Ty.Complete.apply {s : Subst} {t : Ty} (ht : t.Complete) (hs : s.Complete) :
    (t.apply s).Complete := by
  induction s generalizing t with
  | nil => exact ht
  | cons q s ih =>
    rw [Subst.Complete, List.forall_mem_cons] at hs
    refine ih (Ty.complete_subst.2 ⟨ht, fun v _ => ?_⟩) hs.2
    rw [Ty.single]
    split
    · exact hs.1
    · exact Ty.complete_var v

/-- A variable of a type after some equations stood in it before, or on the right of one of them. -/
theorem Ty.mem_vars_apply {s : Subst} {t : Ty} {w : Int} (h : w ∈ (t.apply s).vars) :
    w ∈ t.vars ∨ ∃ q ∈ s, w ∈ q.type.vars := by
  induction s generalizing t with
  | nil => exact .inl h
  | cons q s ih =>
    rcases ih h with hw | ⟨r, hr, hw⟩
    · rcases Ty.mem_vars_replace hw with ⟨hw, -⟩ | hw
      · exact .inl hw
      · exact .inr ⟨q, List.mem_cons_self, hw⟩
    · exact .inr ⟨r, List.mem_cons_of_mem _ hr, hw⟩

theorem Ty.Within.apply {P : Int → Prop} {s : Subst} {t : Ty} (ht : t.Within P)
    (hs : s.Within P) : (t.apply s).Within P := by
  intro w hw
  rcases Ty.mem_vars_apply hw with hw | ⟨q, hq, hw⟩
  · exact ht w hw
  · exact (hs q hq).2 w hw

/-- Equations for other variables leave a type as it is. -/
theorem Ty.apply_eq_self {s : Subst} {t : Ty} (h : ∀ q ∈ s, q.var ∉ t.vars) : t.apply s = t := by
  rw [Ty.apply_eq_subst]
  exact Ty.subst_eq_self fun v hv => Subst.eval_of_forall_ne fun q hq e => h q hq (e ▸ hv)

namespace Subst

/-! ### Triangular lists -/

/-- The ids bound are distinct, and no equation mentions its own id or one bound before it. -/
structure Triangular (s : Subst) : Prop where
  not_mem_self : ∀ q ∈ s, q.var ∉ q.type.vars
  later : s.Pairwise fun q r => r.var ≠ q.var ∧ q.var ∉ r.type.vars

theorem triangular_nil : Triangular [] :=
  ⟨fun _ h => absurd h List.not_mem_nil, .nil⟩

theorem triangular_cons {q : Equation} {s : Subst} :
    Triangular (q :: s) ↔
      q.var ∉ q.type.vars ∧ (∀ r ∈ s, r.var ≠ q.var ∧ q.var ∉ r.type.vars) ∧ Triangular s := by
  constructor
  · rintro ⟨hself, hlater⟩
    rw [List.forall_mem_cons] at hself
    rw [List.pairwise_cons] at hlater
    exact ⟨hself.1, hlater.1, hself.2, hlater.2⟩
  · rintro ⟨hq, hs, hself, hlater⟩
    exact ⟨List.forall_mem_cons.2 ⟨hq, hself⟩, List.pairwise_cons.2 ⟨hs, hlater⟩⟩

/-- Two triangular lists make one if the second mentions nothing that the first binds. -/
theorem Triangular.append {s d : Subst} (hs : s.Triangular) (hd : d.Triangular)
    (h : d.Within fun v => ∀ q ∈ s, q.var ≠ v) : (s ++ d).Triangular := by
  refine ⟨List.forall_mem_append.2 ⟨hs.not_mem_self, hd.not_mem_self⟩, ?_⟩
  rw [List.pairwise_append]
  refine ⟨hs.later, hd.later, fun q hq r hr => ⟨?_, ?_⟩⟩
  · exact Ne.symm ((h r hr).1 q hq)
  · exact fun hv => (h r hr).2 _ hv q hq rfl

theorem Triangular.filter {s : Subst} (hs : s.Triangular) (p : Equation → Bool) :
    Triangular (List.filter p s) :=
  ⟨fun q hq => hs.not_mem_self q (List.mem_of_mem_filter hq), hs.later.filter p⟩

/-- A type resolved by a triangular list mentions nothing that the list binds. -/
theorem Triangular.not_mem_vars_apply {s : Subst} (hs : s.Triangular) (t : Ty) :
    ∀ q ∈ s, q.var ∉ (t.apply s).vars := by
  induction s generalizing t with
  | nil => exact fun _ h => absurd h List.not_mem_nil
  | cons q s ih =>
    obtain ⟨hself, hlater, htail⟩ := triangular_cons.1 hs
    rw [List.forall_mem_cons, Ty.apply_cons]
    refine ⟨fun hv => ?_, ih htail _⟩
    -- `q.var` is gone after the first step, and no later equation brings it back
    rcases Ty.mem_vars_apply hv with hv | ⟨r, hr, hv⟩
    · rcases Ty.mem_vars_replace hv with ⟨-, hne⟩ | hv
      · exact hne rfl
      · exact hself hv
    · exact (hlater r hr).2 hv

/-- A triangular list, also if it has grown since, does not change what it has resolved. -/
theorem Triangular.apply_apply {s : Subst} (hs : s.Triangular) (d : Subst) (t : Ty) :
    (t.apply s).apply (s ++ d) = t.apply (s ++ d) := by
  rw [Ty.apply_append, Ty.apply_append, Ty.apply_eq_self (hs.not_mem_vars_apply t)]

/-! ### Solutions -/

/-- The function `θ` makes both sides of every equation equal. -/
def Solves (θ : Int → Ty) (s : Subst) : Prop :=
  ∀ q ∈ s, θ q.var = q.type.subst θ

theorem solves_nil (θ : Int → Ty) : Solves θ [] :=
  fun _ h => absurd h List.not_mem_nil

theorem solves_append {θ : Int → Ty} {s d : Subst} :
    Solves θ (s ++ d) ↔ Solves θ s ∧ Solves θ d :=
  List.forall_mem_append

/-- Replacing a variable by a type that `θ` does not tell from it changes nothing for `θ`. -/
theorem subst_replace {θ : Int → Ty} {v : Int} {u : Ty} (h : θ v = u.subst θ) (t : Ty) :
    (t.replace v u).subst θ = t.subst θ := by
  rw [Ty.replace, Ty.subst_subst]
  refine Ty.subst_congr fun w _ => ?_
  rw [Ty.single]
  split
  · rename_i e
    rw [e, h]
  · rfl

/-- A solution of some equations does not tell a type from the same type with them applied. -/
theorem Solves.subst_apply {θ : Int → Ty} {s : Subst} (hs : Solves θ s) (t : Ty) :
    (t.apply s).subst θ = t.subst θ := by
  induction s generalizing t with
  | nil => rfl
  | cons q s ih =>
    rw [Solves, List.forall_mem_cons] at hs
    rw [Ty.apply_cons, ih hs.2, subst_replace hs.1]

/-- Only the ids that the equations mention count for a solution. -/
theorem Solves.congr {θ θ' : Int → Ty} {s : Subst} (hs : Solves θ s)
    (h : s.Within fun v => θ' v = θ v) : Solves θ' s := by
  intro q hq
  rw [(h q hq).1, hs q hq]
  exact Ty.subst_congr fun v hv => ((h q hq).2 v hv).symm

end Subst

end LetPoly
