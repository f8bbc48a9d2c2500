import LetPoly.Subst

/-!
# Unification

Unification turns a list of constraints between types into a substitution that makes both sides of
each constraint alike. Constraints are kept on a stack: the last one given is solved first, and so
is the last component of two tuples. A variable is eliminated from all constraints that are left as
soon as it is bound, so every equation of the result mentions only variables that no earlier
equation binds.

The recursion ends because each step either eliminates a variable for good or makes the constraints
smaller without bringing in new variables.

## Main definitions

* `Constraint`: two types that are to be made alike.
* `TypeError`: why two types cannot be made alike.
* `Solution`: the equations found, and the failure that stopped the search, if any.
* `solve`: works through a stack of constraints.
* `unify`: the substitution for a list of constraints, or the failure.
-/

namespace LetPoly

/-- Two types that are to be made alike. -/
structure Constraint where
  left : Ty
  right : Ty
  deriving DecidableEq, Repr

/-- The ways in which two types can fail to be made alike. -/
inductive TypeErrorKind where
  /-- A variable would have to contain itself. -/
  | occursCheck
  /-- The two types have different shapes. -/
  | mismatch
  /-- Two tuples, or two lists of arguments, have different lengths. -/
  | arity
  deriving DecidableEq, Repr

/-- Two types that cannot be made alike. -/
structure TypeError where
  kind : TypeErrorKind
  left : Ty
  right : Ty
  deriving DecidableEq, Repr

/-- The wording of a failure. -/
def TypeError.message (e : TypeError) : String :=
  match e.kind with
  | .occursCheck =>
    "Implicitly recursive types are not supported: " ++ e.left.render ++ " occurs in "
      ++ e.right.render
  | .mismatch => "Type mismatch: " ++ e.left.render ++ " and " ++ e.right.render
  | .arity => "Arity mismatch: " ++ e.left.render ++ " and " ++ e.right.render

/-- The outcome of working through constraints: the equations in the order in which they were
found, and the failure at which the work stopped, if it did. -/
structure Solution where
  solved : Subst
  failure : Option TypeError
  deriving DecidableEq, Repr

/-! ### Stacks of constraints -/

namespace Constraint

/-- Replaces a variable on both sides. -/
def replace (c : Constraint) (v : Int) (u : Ty) : Constraint :=
  ⟨c.left.replace v u, c.right.replace v u⟩

/-- Replaces a variable throughout a stack of constraints. -/
def replaceAll (cs : List Constraint) (v : Int) (u : Ty) : List Constraint :=
  cs.map (·.replace v u)

/-- The constraints between the components of two lists, the last pair on top. -/
def between (as bs : List Ty) : List Constraint :=
  (List.zipWith Constraint.mk as bs).reverse

/-- The variables of a stack of constraints. -/
def vars (cs : List Constraint) : List Int :=
  cs.flatMap fun c => c.left.vars ++ c.right.vars

/-- The number of distinct variables of a stack of constraints. -/
def varCount (cs : List Constraint) : Nat :=
  (VarSet.ofList (vars cs)).size

/-- The total size of a stack of constraints. -/
def size : List Constraint → Nat
  | [] => 0
  | c :: cs => c.left.size + c.right.size + size cs

theorem mem_vars {v : Int} {cs : List Constraint} :
    v ∈ vars cs ↔ ∃ c, c ∈ cs ∧ (v ∈ c.left.vars ∨ v ∈ c.right.vars) := by
  simp [vars]

theorem varCount_le {cs ds : List Constraint} (h : ∀ v, v ∈ vars cs → v ∈ vars ds) :
    varCount cs ≤ varCount ds :=
  VarSet.size_le_of_subset fun v hv => VarSet.mem_ofList.2 (h v (VarSet.mem_ofList.1 hv))

theorem varCount_le_cons (c : Constraint) (cs : List Constraint) :
    varCount cs ≤ varCount (c :: cs) :=
  varCount_le fun _ hv => by
    obtain ⟨d, hd, hv⟩ := mem_vars.1 hv
    exact mem_vars.2 ⟨d, List.mem_cons_of_mem _ hd, hv⟩

/-- Eliminating a variable of the top constraint leaves fewer variables. -/
theorem varCount_replaceAll_lt {v : Int} {u : Ty} {c : Constraint} {cs : List Constraint}
    (hv : v ∈ c.left.vars ∨ v ∈ c.right.vars)
    (hu : ∀ w, w ∈ u.vars → w ∈ c.left.vars ∨ w ∈ c.right.vars) (hn : ¬ v ∈ u.vars) :
    varCount (replaceAll cs v u) < varCount (c :: cs) := by
  have step : ∀ w, w ∈ vars (replaceAll cs v u) → w ∈ vars (c :: cs) ∧ w ≠ v := by
    intro w hw
    obtain ⟨d, hd, hw⟩ := mem_vars.1 hw
    obtain ⟨e, he, rfl⟩ := List.mem_map.1 (show d ∈ cs.map (·.replace v u) from hd)
    have key : ∀ t : Ty, w ∈ (t.replace v u).vars → (w ∈ t.vars ∧ w ≠ v) ∨ w ∈ u.vars :=
      fun t => Ty.mem_vars_replace
    have fromU : w ∈ u.vars → w ∈ vars (c :: cs) ∧ w ≠ v := fun h =>
      ⟨mem_vars.2 ⟨c, List.mem_cons_self, hu w h⟩, fun e => hn (e ▸ h)⟩
    rcases hw with hw | hw
    · rcases key e.left hw with ⟨h, hne⟩ | h
      · exact ⟨mem_vars.2 ⟨e, List.mem_cons_of_mem _ he, .inl h⟩, hne⟩
      · exact fromU h
    · rcases key e.right hw with ⟨h, hne⟩ | h
      · exact ⟨mem_vars.2 ⟨e, List.mem_cons_of_mem _ he, .inr h⟩, hne⟩
      · exact fromU h
  refine VarSet.size_lt_of_subset (x := v) (fun w hw => ?_) ?_ fun hw => ?_
  · exact VarSet.mem_ofList.2 (step w (VarSet.mem_ofList.1 hw)).1
  · exact VarSet.mem_ofList.2 (mem_vars.2 ⟨c, List.mem_cons_self, hv⟩)
  · exact (step v (VarSet.mem_ofList.1 hw)).2 rfl

theorem mem_varsAll {v : Int} {ts : List Ty} : v ∈ Ty.varsAll ts ↔ ∃ t, t ∈ ts ∧ v ∈ t.vars := by
  induction ts with
  | nil => simp [Ty.varsAll]
  | cons t ts ih => simp [Ty.varsAll, ih]

theorem mem_between {c : Constraint} {as bs : List Ty} (h : c ∈ between as bs) :
    c.left ∈ as ∧ c.right ∈ bs := by
  rw [between, List.mem_reverse] at h
  induction as generalizing bs with
  | nil => simp at h
  | cons a as ih =>
    cases bs with
    | nil => simp at h
    | cons b bs =>
      rw [List.zipWith_cons_cons, List.mem_cons] at h
      rcases h with rfl | h
      · exact ⟨List.mem_cons_self, List.mem_cons_self⟩
      · exact ⟨List.mem_cons_of_mem _ (ih h).1, List.mem_cons_of_mem _ (ih h).2⟩

theorem size_append (cs ds : List Constraint) : size (cs ++ ds) = size cs + size ds := by
  induction cs with
  | nil => simp [size]
  | cons c cs ih => simp only [List.cons_append, size, ih]; omega

theorem size_reverse (cs : List Constraint) : size cs.reverse = size cs := by
  induction cs with
  | nil => rfl
  | cons c cs ih => simp only [List.reverse_cons, size_append, size, ih]; omega

theorem size_between_le (as bs : List Ty) :
    size (between as bs) ≤ Ty.sizeAll as + Ty.sizeAll bs := by
  rw [between, size_reverse]
  induction as generalizing bs with
  | nil => simp [size]
  | cons a as ih =>
    cases bs with
    | nil => simp [size]
    | cons b bs =>
      have := ih bs
      simp only [List.zipWith_cons_cons, size, Ty.sizeAll]
      omega

theorem varCount_arrow_le (as bs : List Ty) (r s : Ty) (cs : List Constraint) :
    varCount (⟨.tuple as, .tuple bs⟩ :: ⟨r, s⟩ :: cs)
      ≤ varCount (⟨.arrow as r, .arrow bs s⟩ :: cs) := by
  refine varCount_le fun v hv => ?_
  simp only [vars, List.flatMap_cons, Ty.vars, List.mem_append] at hv ⊢
  rcases hv with (h | h) | (h | h) | h <;> simp [h]

theorem varCount_tuple_le (as bs : List Ty) (cs : List Constraint) :
    varCount (between as bs ++ cs) ≤ varCount (⟨.tuple as, .tuple bs⟩ :: cs) := by
  refine varCount_le fun v hv => ?_
  obtain ⟨c, hc, hv⟩ := mem_vars.1 hv
  rcases List.mem_append.1 hc with hc | hc
  · have hm := mem_between hc
    refine mem_vars.2 ⟨_, List.mem_cons_self, ?_⟩
    simp only [Ty.vars]
    rcases hv with hv | hv
    · exact .inl (mem_varsAll.2 ⟨_, hm.1, hv⟩)
    · exact .inr (mem_varsAll.2 ⟨_, hm.2, hv⟩)
  · exact mem_vars.2 ⟨c, List.mem_cons_of_mem _ hc, hv⟩

end Constraint

/-! ### Solving -/

private theorem lex_of_le_of_lt {a a' b b' : Nat} (h₁ : a' ≤ a) (h₂ : b' < b) :
    Prod.Lex (· < ·) (· < ·) (a', b') (a, b) := by
  rcases Nat.lt_or_eq_of_le h₁ with h | rfl
  · exact .left _ _ h
  · exact .right _ h₂

private theorem lex_of_lt {a a' b b' : Nat} (h : a' < a) :
    Prod.Lex (· < ·) (· < ·) (a', b') (a, b) := .left _ _ h

/-- Works through a stack of constraints from the top, until none is left or one fails. -/
def solve (pending : List Constraint) : Solution :=
  match pending with
  | [] => ⟨[], none⟩
  | ⟨.var v, t⟩ :: rest =>
    if t = .var v then solve rest
    else if _h : v ∈ t.vars then ⟨[], some ⟨.occursCheck, .var v, t⟩⟩
    else
      let r := solve (Constraint.replaceAll rest v t)
      ⟨⟨v, t⟩ :: r.solved, r.failure⟩
  | ⟨t, .var v⟩ :: rest =>
    if _h : v ∈ t.vars then ⟨[], some ⟨.occursCheck, .var v, t⟩⟩
    else
      let r := solve (Constraint.replaceAll rest v t)
      ⟨⟨v, t⟩ :: r.solved, r.failure⟩
  | ⟨.const m, .const n⟩ :: rest =>
    if m = n then solve rest else ⟨[], some ⟨.mismatch, .const m, .const n⟩⟩
  | ⟨.arrow as r, .arrow bs s⟩ :: rest =>
    solve (⟨.tuple as, .tuple bs⟩ :: ⟨r, s⟩ :: rest)
  | ⟨.tuple as, .tuple bs⟩ :: rest =>
    if as.length = bs.length then solve (Constraint.between as bs ++ rest)
    else ⟨[], some ⟨.arity, .tuple as, .tuple bs⟩⟩
  | ⟨a, b⟩ :: _ => ⟨[], some ⟨.mismatch, a, b⟩⟩
termination_by (Constraint.varCount pending, Constraint.size pending)
decreasing_by
  · refine lex_of_le_of_lt (Constraint.varCount_le_cons _ _) ?_
    simp only [Constraint.size, Ty.size]; omega
  · exact lex_of_lt (Constraint.varCount_replaceAll_lt (by simp [Ty.vars])
      (fun w hw => .inr hw) ‹_›)
  · exact lex_of_lt (Constraint.varCount_replaceAll_lt (by simp [Ty.vars])
      (fun w hw => .inl hw) ‹_›)
  · refine lex_of_le_of_lt (Constraint.varCount_le_cons _ _) ?_
    simp only [Constraint.size, Ty.size]; omega
  · refine lex_of_le_of_lt (Constraint.varCount_arrow_le ..) ?_
    simp only [Constraint.size, Ty.size]; omega
  · refine lex_of_le_of_lt (Constraint.varCount_tuple_le ..) ?_
    have := Constraint.size_between_le as bs
    simp only [Constraint.size, Constraint.size_append, Ty.size]; omega

/-- The substitution that makes both sides of every constraint alike, the last constraint first. -/
def unify (constraints : List Constraint) : Except TypeError Subst :=
  let r := solve constraints.reverse
  match r.failure with
  | some e => .error e
  | none => .ok r.solved

end LetPoly
