import LetPoly.Proofs.Freshness

/-!
# Invariants of type inference

A property of states that every single step keeps holds after inference, whatever the tree and
however inference ends. Nothing is asked of the ids that occur in the tree, in the environment or in
the supply, so this is how facts are shown that do not rest on freshness.

## Main definitions

* `Outcome.Leaves`: the state in which a step ends, well or not, has a property.
* `Outcome.Yields`: what a step gives back has a property, if it ends well.
* `State.Steady`, `State.Stable`: every step of inference keeps the property, without or with the
  step that brings the environment up to date.

## Main results

* `Outcome.Leaves.andThen`, `Outcome.leaves_unifyThen`, `Outcome.Leaves.leaving`: how properties of
  the final state go through the ways of putting steps together, and likewise for
  `Outcome.Yields.andThen`, `Outcome.yields_unifyThen`, `Outcome.Yields.leaving`.
* `infer_leaves`: inference keeps a stable property.
* `State.stable_triangular`: the substitution stays triangular.
-/

namespace LetPoly

open Outcome

/-! ### The state at the end -/

namespace Outcome

variable {τ τ' ρ ρ' : Type} {I : State → Prop}

/-- The state in which the step ends, well or not, satisfies `I`. -/
def Leaves (o : Outcome τ ρ) (I : State → Prop) : Prop :=
  I o.state

theorem leaves_done {a : τ} {st : State} {v : ρ} (h : I st) : (done a st v).Leaves I :=
  h

/-- What follows a step may rely on how the step ended. -/
theorem Leaves.andThen {o : Outcome τ ρ} (ho : o.Leaves I) {rebuild : τ → τ'}
    {blame : Failure → Failure} {next : τ → State → ρ → Outcome τ' ρ'}
    (h : ∀ a st v, o = done a st v → I st → (next a st v).Leaves I) :
    (o.andThen rebuild blame next).Leaves I := by
  cases hr : o.result with
  | error f =>
    rw [Outcome.andThen, hr]
    exact ho
  | ok v =>
    rw [Outcome.andThen, hr]
    exact h o.tree o.state v (eq_done_of_result hr) ho

theorem Leaves.leaving {o : Outcome Expr Ty} (ho : o.Leaves I) {rebuild : Expr → Expr} {i n : Nat}
    (h : ∀ st st', I st → st.leave? n = some st' → I st') : (o.leaving rebuild i n).Leaves I := by
  rw [Outcome.leaving]
  split
  · exact ho
  · rename_i st hl
    split <;> exact h o.state st ho hl

section Steps

variable {st : State} {tree : Expr} {a b : Ty} {next : State → Outcome Expr Ty}

theorem leaves_unifyThen (hu : I (st.unify a b).1)
    (h : ∀ st₁, st.unify a b = (st₁, none) → I st₁ → (next st₁).Leaves I) :
    (st.unifyThen tree a b next).Leaves I := by
  rw [State.unifyThen]
  split
  · rename_i st₁ e heq
    rw [heq] at hu
    exact hu
  · rename_i st₁ heq
    rw [heq] at hu
    exact h st₁ heq hu

theorem leaves_constrain {r : Ty} (hu : I (st.unify a b).1) :
    (st.constrain tree a b r).Leaves I :=
  leaves_unifyThen hu fun _ _ h => leaves_done h

theorem leaves_leaveThen {n : Nat} (hst : I st)
    (h : ∀ st₁, st.leave? n = some st₁ → (next st₁).Leaves I) :
    (st.leaveThen tree n next).Leaves I := by
  rw [State.leaveThen]
  split
  · exact hst
  · rename_i st₁ hl
    exact h st₁ hl

end Steps

end Outcome

/-! ### What a step gives back -/

namespace Outcome

variable {τ τ' ρ ρ' : Type} {Q : τ → State → ρ → Prop} {R : τ' → State → ρ' → Prop}

/-- If the step ends well, it gives back what satisfies `Q`. -/
def Yields (o : Outcome τ ρ) (Q : τ → State → ρ → Prop) : Prop :=
  ∀ a st v, o = done a st v → Q a st v

theorem yields_done {a : τ} {st : State} {v : ρ} (h : Q a st v) : (done a st v).Yields Q := by
  intro _ _ _ heq
  obtain ⟨rfl, rfl, rfl⟩ := done_inj.1 heq
  exact h

theorem yields_failed {a : τ} {st : State} {f : Failure} : (failed a st f).Yields Q :=
  fun _ _ _ heq => absurd heq failed_ne_done

theorem Yields.andThen {o : Outcome τ ρ} (ho : o.Yields Q) {rebuild : τ → τ'}
    {blame : Failure → Failure} {next : τ → State → ρ → Outcome τ' ρ'}
    (h : ∀ a st v, Q a st v → (next a st v).Yields R) :
    (o.andThen rebuild blame next).Yields R := by
  intro _ _ _ heq
  obtain ⟨a, st, v, ho', heq⟩ := andThen_eq_done.1 heq
  exact h a st v (ho a st v ho') _ _ _ heq

section Steps

variable {st : State} {tree : Expr} {a b : Ty} {next : State → Outcome Expr Ty}
  {Q R : Expr → State → Ty → Prop}

theorem Yields.leaving {o : Outcome Expr Ty} (ho : o.Yields Q) {rebuild : Expr → Expr} {i n : Nat}
    (h : ∀ e st t st', Q e st t → st.leave? n = some st' → R (rebuild e) st' t) :
    (o.leaving rebuild i n).Yields R := by
  intro _ st' t heq
  obtain ⟨e, st, ho', hl, rfl⟩ := leaving_eq_done.1 heq
  exact h e st t st' (ho e st t ho') hl

theorem yields_unifyThen (h : ∀ st₁, st.unify a b = (st₁, none) → (next st₁).Yields Q) :
    (st.unifyThen tree a b next).Yields Q := by
  intro _ _ _ heq
  obtain ⟨st₁, hu, heq⟩ := State.unifyThen_eq_done.1 heq
  exact h st₁ hu _ _ _ heq

theorem yields_constrain {r : Ty} (h : ∀ st₁, st.unify a b = (st₁, none) → Q tree st₁ r) :
    (st.constrain tree a b r).Yields Q :=
  yields_unifyThen fun st₁ hu => yields_done (h st₁ hu)

theorem yields_leaveThen {n : Nat} (h : ∀ st₁, st.leave? n = some st₁ → (next st₁).Yields Q) :
    (st.leaveThen tree n next).Yields Q := by
  intro _ _ _ heq
  obtain ⟨st₁, hl, heq⟩ := State.leaveThen_eq_done.1 heq
  exact h st₁ hl _ _ _ heq

end Steps

end Outcome

/-! ### Properties that every step keeps -/

namespace State

/-- Every step of inference keeps the property `I`, but perhaps for bringing the environment up to
date. -/
structure Steady (I : State → Prop) : Prop where
  freshVar : ∀ {st : State}, I st → I st.freshVar.2
  instantiate : ∀ {st : State} (σ : Scheme), I st → I (st.instantiate σ).2
  unify : ∀ {st : State} (a b : Ty), I st → I (st.unify a b).1
  pushMono : ∀ {st : State} (x : String) (t : Ty), I st → I (st.pushMono x t)
  leave : ∀ {st st' : State} {n : Nat}, I st → st.leave? n = some st' → I st'
  bind : ∀ {st : State} (b : Binding), I st → I (st.bind b)

/-- Every step of inference keeps the property `I`. -/
structure Stable (I : State → Prop) : Prop extends Steady I where
  refresh : ∀ {st : State}, I st → I st.refresh

namespace Steady

variable {I : State → Prop}

theorem declare (hI : Steady I) {st : State} (b : Binding) (h : I st) : I (st.declare b).2 := by
  rw [State.declare]
  split
  · exact hI.freshVar h
  · exact h

theorem enter (hI : Steady I) {st : State} (bs : List Binding) (h : I st) :
    I (st.enter bs).2 := by
  induction bs generalizing st with
  | nil => exact h
  | cons b bs ih => exact ih (hI.pushMono _ _ (hI.declare b h))

theorem foldl_bind (hI : Steady I) {st : State} (bs : List Binding) (h : I st) :
    I (bs.foldl State.bind st) := by
  induction bs generalizing st with
  | nil => exact h
  | cons b bs ih => exact ih (hI.bind b h)

end Steady

/-- The scope in which names are known with generalized types. -/
theorem Stable.rest {I : State → Prop} (hI : Stable I) {st : State} (bs : List Binding) (h : I st) :
    I (bs.foldl State.bind st.refresh) :=
  hI.foldl_bind bs (hI.refresh h)

/-- The substitution is triangular at every moment, whatever the ids. -/
theorem stable_triangular : Stable fun st => st.subst.Triangular where
  freshVar h := h
  instantiate _ h := h
  unify a b h := triangular_unify h a b
  pushMono _ _ h := h
  leave h hl := by
    obtain ⟨-, rfl⟩ := leave?_eq_some.1 hl
    exact h
  refresh h := h
  bind _ h := h

end State

/-! ### Whole trees -/

section Runs

variable {I : State → Prop}

mutual

/-- Inference keeps what every step keeps, whether it ends well or not. -/
theorem infer_leaves (hI : State.Stable I) : (e : Expr) → {st : State} → I st →
    (infer e st).Leaves I
  | .absent, _, h => h
  | .unit, _, h => h
  | .bool _, _, h => h
  | .int _, _, h => h
  | .var x, st, h => by
    rw [infer]
    split
    · exact h
    · exact hI.instantiate _ h
  | .not e, _, h =>
    (infer_leaves hI e h).andThen fun _ _ t _ h => leaves_constrain (hI.unify .bool t h)
  | .neg e, _, h =>
    (infer_leaves hI e h).andThen fun _ _ t _ h => leaves_constrain (hI.unify .int t h)
  | .arith _ l r, _, h =>
    (infer_leaves hI l h).andThen fun _ _ t₁ _ h => (infer_leaves hI r h).andThen fun _ _ t₂ _ h =>
      leaves_unifyThen (hI.unify t₁ t₂ h) fun _ _ h => leaves_constrain (hI.unify t₁ .int h)
  | .eq l r, _, h =>
    (infer_leaves hI l h).andThen fun _ _ t₁ _ h => (infer_leaves hI r h).andThen fun _ _ t₂ _ h =>
      leaves_constrain (hI.unify t₁ t₂ h)
  | .le l r, _, h =>
    (infer_leaves hI l h).andThen fun _ _ t₁ _ h =>
      leaves_unifyThen (hI.unify .int t₁ h) fun _ _ h =>
        (infer_leaves hI r h).andThen fun _ _ t₂ _ h => leaves_constrain (hI.unify .int t₂ h)
  | .ite c e₁ e₂, _, h =>
    (infer_leaves hI c h).andThen fun _ _ t₁ _ h =>
      leaves_unifyThen (hI.unify .bool t₁ h) fun _ _ h =>
        (infer_leaves hI e₁ h).andThen fun _ _ t₂ _ h =>
          (infer_leaves hI e₂ h).andThen fun _ _ t₃ _ h =>
            leaves_unifyThen (hI.unify t₂ t₃ h) fun _ _ h => leaves_done h
  | .letIn b v e, _, h =>
    (infer_leaves hI v (hI.declare b h)).andThen fun _ _ t _ h =>
      leaves_unifyThen (hI.unify _ t h) fun st _ h =>
        (infer_leaves hI e (hI.rest [st.resolve _] h)).leaving fun _ _ => hI.leave
  | .letRec fn args body rest, _, h =>
    (infer_leaves hI body (hI.enter args (hI.pushMono _ _ (hI.declare fn h)))).andThen
      fun _ _ ret _ h => leaves_leaveThen h fun _ hl =>
        leaves_unifyThen (hI.unify _ _ (hI.leave h hl)) fun st _ h =>
          (infer_leaves hI rest (hI.rest [st.resolve _] h)).leaving fun _ _ => hI.leave
  | .app fn args _, _, h =>
    (infer_leaves hI fn h).andThen fun _ _ t _ h =>
      (inferAll_leaves hI 1 args h).andThen fun _ _ ts _ h =>
        leaves_unifyThen (hI.unify (.arrow ts _) t (hI.freshVar h)) fun _ _ h => leaves_done h
  | .tuple es, _, h => (inferAll_leaves hI 0 es h).andThen fun _ _ _ _ h => leaves_done h
  | .letTuple vars v e, _, h =>
    (infer_leaves hI v (hI.enter vars h)).andThen fun _ _ t _ h => leaves_leaveThen h fun _ hl =>
      leaves_unifyThen (hI.unify t _ (hI.leave h hl)) fun _ _ h =>
        (infer_leaves hI e (hI.rest _ h)).leaving fun _ _ => hI.leave
  | .foreign _, _, h => h

theorem inferAll_leaves (hI : State.Stable I) (i : Nat) : (es : List Expr) → {st : State} → I st →
    (inferAll i es st).Leaves I
  | [], _, h => h
  | e :: es, _, h =>
    (infer_leaves hI e h).andThen fun _ _ _ _ h =>
      (inferAll_leaves hI (i + 1) es h).andThen fun _ _ _ _ h => leaves_done h

end

end Runs

end LetPoly
