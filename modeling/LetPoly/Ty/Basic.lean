import LetPoly.VarSet

/-!
# Types

A type is a named constant, a type variable, a function type with any number of arguments, or a
tuple type with any number of components. `Ty.absent` stands for a type nobody has given: it fills
the empty slots of a program and may occur anywhere inside a type.

## Main definitions

* `Ty`: the types.
* `Ty.vars`, `Ty.freeVars`, `Ty.occurs`: the variables of a type.
* `Ty.subst`: replaces all variables of a type at once; `Ty.replace` and `Ty.rename` replace one.
* `Ty.equal`: structural equality, under which `Ty.absent` equals nothing.

## Main results

* `Ty.mem_vars_subst`: the variables of a type after a replacement.
-/

namespace LetPoly

/-- The types of expressions. -/
inductive Ty where
  /-- No type: an empty slot, or a hole inside a type. -/
  | absent
  /-- A named constant such as `int`. -/
  | const (name : String)
  /-- A type variable. -/
  | var (id : Int)
  /-- A function type. -/
  | arrow (args : List Ty) (ret : Ty)
  /-- A tuple type. -/
  | tuple (elems : List Ty)
  deriving Repr, Inhabited

namespace Ty

/-- The type of integers. -/
def int : Ty := .const "int"

/-- The type of truth values. -/
def bool : Ty := .const "bool"

/-- The type with one value. -/
def unit : Ty := .const "unit"

/-- Is this the missing type? -/
def isAbsent : Ty → Bool
  | .absent => true
  | _ => false

/-! ### Variables -/

mutual

/-- The variables of a type in the order in which they are written, with repeats. -/
def vars : Ty → List Int
  | .absent => []
  | .const _ => []
  | .var v => [v]
  | .arrow args ret => varsAll args ++ ret.vars
  | .tuple elems => varsAll elems

/-- The variables of a list of types, one after the other. -/
def varsAll : List Ty → List Int
  | [] => []
  | t :: ts => t.vars ++ varsAll ts

end

/-- The set of variables of a type. -/
def freeVars (t : Ty) : VarSet :=
  .ofList t.vars

/-- Does the variable `v` occur in the type? -/
def occurs (v : Int) (t : Ty) : Bool :=
  decide (v ∈ t.vars)

/-! ### Replacing variables -/

mutual

/-- Replaces every variable by the type that `σ` gives for it, all at once. -/
def subst (σ : Int → Ty) : Ty → Ty
  | .absent => .absent
  | .const n => .const n
  | .var v => σ v
  | .arrow args ret => .arrow (substAll σ args) (ret.subst σ)
  | .tuple elems => .tuple (substAll σ elems)

/-- Replaces the variables in every type of a list. -/
def substAll (σ : Int → Ty) : List Ty → List Ty
  | [] => []
  | t :: ts => t.subst σ :: substAll σ ts

end

/-- The replacement of the one variable `v` by `u`. -/
def single (v : Int) (u : Ty) (x : Int) : Ty :=
  if x = v then u else .var x

/-- Replaces the variable `v` by the type `u`. -/
def replace (t : Ty) (v : Int) (u : Ty) : Ty :=
  t.subst (single v u)

/-- Replaces the variable `v` by the variable `w`. -/
def rename (t : Ty) (v w : Int) : Ty :=
  t.replace v (.var w)

/-! ### Equality -/

mutual

/-- Structural equality of two types. The missing type equals nothing, not even itself. -/
def equal : Ty → Ty → Bool
  | .const a, .const b => a == b
  | .var v, .var w => v == w
  | .arrow as r, .arrow bs s => equalAll as bs && equal r s
  | .tuple as, .tuple bs => equalAll as bs
  | _, _ => false

/-- Structural equality of two lists of types, component by component. -/
def equalAll : List Ty → List Ty → Bool
  | [], [] => true
  | a :: as, b :: bs => equal a b && equalAll as bs
  | _, _ => false

end

mutual

/-- Are two types written alike, with missing types in the same places? -/
def same : Ty → Ty → Bool
  | .absent, .absent => true
  | .const a, .const b => a == b
  | .var v, .var w => v == w
  | .arrow as r, .arrow bs s => sameAll as bs && same r s
  | .tuple as, .tuple bs => sameAll as bs
  | _, _ => false

/-- Are two lists of types written alike? -/
def sameAll : List Ty → List Ty → Bool
  | [], [] => true
  | a :: as, b :: bs => same a b && sameAll as bs
  | _, _ => false

end

mutual

theorem same_iff : (a b : Ty) → (same a b = true ↔ a = b)
  | .absent, b => by cases b <;> simp [same]
  | .const _, b => by cases b <;> simp [same]
  | .var _, b => by cases b <;> simp [same]
  | .arrow as r, b => by
    cases b <;> simp only [same, Bool.and_eq_true, sameAll_iff as, same_iff r, reduceCtorEq,
      Bool.false_eq_true, arrow.injEq]
  | .tuple as, b => by
    cases b <;> simp only [same, sameAll_iff as, reduceCtorEq, Bool.false_eq_true, tuple.injEq]

theorem sameAll_iff : (as bs : List Ty) → (sameAll as bs = true ↔ as = bs)
  | [], bs => by cases bs <;> simp [sameAll]
  | a :: as, bs => by
    cases bs <;> simp only [sameAll, Bool.and_eq_true, same_iff a, sameAll_iff as, reduceCtorEq,
      Bool.false_eq_true, List.cons.injEq]

end

instance : DecidableEq Ty := fun a b => decidable_of_iff (same a b = true) (same_iff a b)

/-! ### Size -/

mutual

/-- The number of constructors, counting a function type twice. -/
def size : Ty → Nat
  | .absent => 1
  | .const _ => 1
  | .var _ => 1
  | .arrow args ret => 2 + sizeAll args + ret.size
  | .tuple elems => 1 + sizeAll elems

/-- The total size of a list of types. -/
def sizeAll : List Ty → Nat
  | [] => 0
  | t :: ts => t.size + sizeAll ts

end

/-! ### Laws -/

theorem occurs_iff {v : Int} {t : Ty} : t.occurs v = true ↔ v ∈ t.vars := by
  simp [occurs]

@[simp] theorem mem_freeVars {v : Int} {t : Ty} : v ∈ t.freeVars ↔ v ∈ t.vars :=
  VarSet.mem_ofList

mutual

theorem mem_vars_subst {σ : Int → Ty} {w : Int} :
    (t : Ty) → (w ∈ (t.subst σ).vars ↔ ∃ v, v ∈ t.vars ∧ w ∈ (σ v).vars)
  | .absent => by simp [subst, vars]
  | .const _ => by simp [subst, vars]
  | .var v => by simp [subst, vars]
  | .arrow args ret => by
    simp only [subst, vars, List.mem_append, mem_varsAll_substAll args, mem_vars_subst ret]
    constructor
    · rintro (⟨v, hv, hw⟩ | ⟨v, hv, hw⟩)
      · exact ⟨v, .inl hv, hw⟩
      · exact ⟨v, .inr hv, hw⟩
    · rintro ⟨v, hv | hv, hw⟩
      · exact .inl ⟨v, hv, hw⟩
      · exact .inr ⟨v, hv, hw⟩
  | .tuple elems => by simpa only [subst, vars] using mem_varsAll_substAll elems

theorem mem_varsAll_substAll {σ : Int → Ty} {w : Int} :
    (ts : List Ty) → (w ∈ varsAll (substAll σ ts) ↔ ∃ v, v ∈ varsAll ts ∧ w ∈ (σ v).vars)
  | [] => by simp [substAll, varsAll]
  | t :: ts => by
    simp only [substAll, varsAll, List.mem_append, mem_vars_subst t, mem_varsAll_substAll ts]
    constructor
    · rintro (⟨v, hv, hw⟩ | ⟨v, hv, hw⟩)
      · exact ⟨v, .inl hv, hw⟩
      · exact ⟨v, .inr hv, hw⟩
    · rintro ⟨v, hv | hv, hw⟩
      · exact .inl ⟨v, hv, hw⟩
      · exact .inr ⟨v, hv, hw⟩

end

/-- The variables left after the replacement of `v` by `u` are variables of the type other than
`v`, or variables of `u`. -/
theorem mem_vars_replace {v w : Int} {u t : Ty} (h : w ∈ (t.replace v u).vars) :
    (w ∈ t.vars ∧ w ≠ v) ∨ w ∈ u.vars := by
  obtain ⟨x, hx, hw⟩ := (mem_vars_subst t).1 h
  by_cases e : x = v
  · exact .inr (by simpa [single, e] using hw)
  · have : w = x := by simpa [single, e, vars] using hw
    exact .inl ⟨this ▸ hx, this ▸ e⟩

end Ty

end LetPoly
