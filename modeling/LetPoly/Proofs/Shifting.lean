import LetPoly.Proofs.Freshness
import LetPoly.Proofs.Relabelling
import LetPoly.Proofs.Starts
import LetPoly.Proofs.Trees

/-!
# Where fresh ids start

Inference draws its fresh ids from a supply, one after the other. If all ids that are there before
lie below the start of the supply, then it does not matter where the supply starts: a supply that
starts higher gives the same outcome, with every fresh id moved up by the same amount. This holds
for runs that fail too, down to the node that is blamed. A pass without a supply of its own starts
above the ids in slots and bodies, but not above those that a scheme only lists as quantified, and
there it does matter.

The map that moves the ids keeps their order, which counts because the quantified variables of a
scheme are renamed in order. The steps of inference commute with it one by one, those that draw ids
as long as the higher supply does not overflow.

## Main definitions

* `shift`: the map that fixes the ids below one start and moves the others to another start.
* `Outcome.Shifted`: two outcomes that differ by a shift, unless the second one has overflowed.
* `Pass.Corresponds`: two passes that differ by a function on ids.

## Main results

* `infer_shifted`: inference commutes with a shift.
* `Context.infer_shift`: a pass does not depend on where its fresh ids start above all others.
* `Context.infer_listed`: a pass that starts below an id that a scheme lists, with another outcome.
-/

namespace LetPoly

open Outcome

open Function (Injective)

/-! ### The map -/

/-- Fixes the ids below `n` and moves the others up, `n` to `m`. -/
def shift (n m v : Int) : Int :=
  if v < n then v else v + (m - n)

section Shift

variable {n m v : Int}

theorem shift_of_lt (h : v < n) : shift n m v = v :=
  if_pos h

theorem shift_of_le (h : n ≤ v) : shift n m v = v + (m - n) :=
  if_neg (Int.not_lt.2 h)

theorem shift_strictMono (h : n ≤ m) : StrictMono (shift n m) := by
  intro u v huv
  simp only [shift]
  split <;> split <;> omega

/-- Without overflow the id after a fresh one moves along. -/
theorem succ_shift (hlow : Supply.first ≤ n) (hnm : n ≤ m) (hv : n ≤ v)
    (hroom : shift n m v < Supply.last) :
    Supply.succ (shift n m v) = shift n m (Supply.succ v) ∧ n ≤ Supply.succ v := by
  rw [shift_of_le hv] at hroom ⊢
  rw [Supply.succ_eq (by omega) hroom, Supply.succ_eq (by omega) (by omega),
    shift_of_le (by omega : n ≤ v + 1)]
  omega

end Shift

/-! ### States with other ids -/

variable {f : Int → Int}

/-- The event with other ids. -/
def Event.relabel (f : Int → Int) : Event → Event
  | .drawn v => .drawn (f v)
  | .bound q => .bound (q.relabel f)
  | .refreshed env s => .refreshed (env.relabel f) (s.relabel f)
  | .generalized x σ => .generalized x (σ.relabel f)

/-- The error with other ids in its types. -/
def InferError.relabel (f : Int → Int) : InferError → InferError
  | .type e => .type (e.relabel f)
  | e => e

/-- The failure with other ids in its types, at the same place. -/
def Failure.relabel (f : Int → Int) (g : Failure) : Failure :=
  ⟨g.error.relabel f, g.place⟩

namespace State

/-- The state with other ids. -/
def relabel (f : Int → Int) (st : State) : State :=
  ⟨st.env.relabel f, st.subst.relabel f, ⟨f st.supply.next⟩, st.trace.map (·.relabel f)⟩

section Injective

variable (hf : Injective f) (st : State)
include hf

theorem relabel_unify (a b : Ty) :
    (st.relabel f).unify (a.relabel f) (b.relabel f) =
      ((st.unify a b).1.relabel f, (st.unify a b).2.map (·.relabel f)) := by
  have hsolve : solve [⟨(a.relabel f).apply (st.subst.relabel f),
      (b.relabel f).apply (st.subst.relabel f)⟩] =
      (solve [⟨a.apply st.subst, b.apply st.subst⟩]).relabel f := by
    rw [← Ty.relabel_apply hf, ← Ty.relabel_apply hf, ← solve_relabel hf]
    rfl
  have htrace : ∀ s : Subst, (st.trace ++ s.map Event.bound).map (·.relabel f) =
      st.trace.map (·.relabel f) ++ (s.relabel f).map Event.bound := by
    intro s
    rw [List.map_append, Subst.relabel, List.map_map, List.map_map]
    rfl
  simp only [unify, relabel, hsolve, Solution.relabel]
  cases (solve [⟨a.apply st.subst, b.apply st.subst⟩]).failure with
  | none => simp only [Option.map_none, htrace, Subst.relabel_append]
  | some e => simp only [Option.map_some, htrace]

theorem relabel_resolve (b : Binding) :
    (st.relabel f).resolve (b.relabel f) = (st.resolve b).relabel f := by
  rw [resolve, resolve, Binding.relabel, Binding.relabel, Ty.relabel_apply hf]
  rfl

theorem relabel_map_resolve (bs : List Binding) :
    (bs.map (·.relabel f)).map (st.relabel f).resolve = (bs.map st.resolve).map (·.relabel f) := by
  rw [List.map_map, List.map_map]
  exact List.map_congr_left fun b _ => relabel_resolve hf st b

theorem relabel_refresh : (st.relabel f).refresh = st.refresh.relabel f := by
  simp only [refresh, relabel, ← Env.relabel_apply hf, List.map_append]
  rfl

theorem relabel_bind (b : Binding) :
    (st.relabel f).bind (b.relabel f) = (st.bind b).relabel f := by
  simp only [bind, relabel, Binding.relabel, ← Env.relabel_generalize hf, List.map_append]
  rfl

theorem relabel_foldl_bind (bs : List Binding) :
    (bs.map (·.relabel f)).foldl bind (st.relabel f) = (bs.foldl bind st).relabel f := by
  induction bs generalizing st with
  | nil => rfl
  | cons b bs ih => rw [List.map_cons, List.foldl_cons, relabel_bind hf, ih, List.foldl_cons]

end Injective

theorem relabel_leave? (st : State) (k : Nat) :
    (st.relabel f).leave? k = (st.leave? k).map (·.relabel f) := by
  have hlen : (st.relabel f).env.length = st.env.length := List.length_map _
  by_cases hk : k ≤ st.env.length
  · rw [leave?_eq_some.2 ⟨hk, rfl⟩, leave?_eq_some.2 ⟨hlen ▸ hk, rfl⟩, Option.map_some]
    simp only [relabel, Env.relabel, List.map_drop]
  · have hnone : ∀ st' : State, ¬ k ≤ st'.env.length → st'.leave? k = none := fun st' h =>
      Option.eq_none_iff_forall_ne_some.2 fun _ h' => h (leave?_eq_some.1 h').1
    rw [hnone st hk, hnone _ (hlen ▸ hk), Option.map_none]

/-! ### Steps that draw ids -/

section Draw

variable {n m : Int} (hlow : Supply.first ≤ n) (hnm : n ≤ m)
include hlow hnm

theorem shift_freshVar {st : State} (hn : n ≤ st.supply.next)
    (hw : NoWrap (st.relabel (shift n m)).freshVar.2.trace) :
    (st.relabel (shift n m)).freshVar =
        (st.freshVar.1.relabel (shift n m), st.freshVar.2.relabel (shift n m)) ∧
      n ≤ st.freshVar.2.supply.next := by
  obtain ⟨hsucc, hn'⟩ := succ_shift hlow hnm hn hw.next_lt
  refine ⟨?_, hn'⟩
  simp only [freshVar, Supply.fresh, Supply.after, relabel, hsucc, List.map_append]
  rfl

theorem shift_declare {st : State} (b : Binding) (hn : n ≤ st.supply.next)
    (hw : NoWrap ((st.relabel (shift n m)).declare (b.relabel (shift n m))).2.trace) :
    (st.relabel (shift n m)).declare (b.relabel (shift n m)) =
        ((st.declare b).1.relabel (shift n m), (st.declare b).2.relabel (shift n m)) ∧
      n ≤ (st.declare b).2.supply.next := by
  have habsent : (b.relabel (shift n m)).slot.isAbsent = b.slot.isAbsent := b.slot.isAbsent_relabel
  rw [declare, habsent] at hw ⊢
  rw [declare]
  by_cases h : b.slot.isAbsent = true
  · rw [if_pos h] at hw
    rw [if_pos h, if_pos h]
    obtain ⟨heq, hn'⟩ := shift_freshVar hlow hnm hn hw
    refine ⟨?_, hn'⟩
    rw [heq]
    rfl
  · rw [if_neg h, if_neg h]
    exact ⟨rfl, hn⟩

theorem shift_enter {st : State} (bs : List Binding) (hn : n ≤ st.supply.next)
    (hw : NoWrap ((st.relabel (shift n m)).enter (bs.map (·.relabel (shift n m)))).2.trace) :
    (st.relabel (shift n m)).enter (bs.map (·.relabel (shift n m))) =
        ((st.enter bs).1.map (·.relabel (shift n m)), (st.enter bs).2.relabel (shift n m)) ∧
      n ≤ (st.enter bs).2.supply.next := by
  induction bs generalizing st with
  | nil => exact ⟨rfl, hn⟩
  | cons b bs ih =>
    let p := (st.relabel (shift n m)).declare (b.relabel (shift n m))
    obtain ⟨hb, hn₁⟩ := shift_declare hlow hnm b hn (hw.of_isPrefix
      ((p.2.pushMono p.1.name p.1.slot).trace_prefix_enter
        (bs.map (Binding.relabel (shift n m)))))
    simp only [List.map_cons, enter, hb] at hw ⊢
    obtain ⟨hbs, hn₂⟩ := @ih ((st.declare b).2.pushMono (st.declare b).1.name
      (st.declare b).1.slot) hn₁ hw
    refine ⟨?_, hn₂⟩
    have hpush : ((st.declare b).2.relabel (shift n m)).pushMono
        ((st.declare b).1.relabel (shift n m)).name ((st.declare b).1.relabel (shift n m)).slot =
        ((st.declare b).2.pushMono (st.declare b).1.name (st.declare b).1.slot).relabel
          (shift n m) := rfl
    rw [hpush, hbs]

/-- The ids drawn move along with the supply. -/
theorem shift_freshList (k : Nat) {g : Supply} (hn : n ≤ g.next)
    (hroom : ∀ v ∈ (Supply.freshList ⟨shift n m g.next⟩ k).1, v < Supply.last) :
    (Supply.freshList ⟨shift n m g.next⟩ k).1 = (g.freshList k).1.map (shift n m) := by
  induction k generalizing g with
  | zero => rfl
  | succ k ih =>
    simp only [Supply.freshList, Supply.fresh, Supply.after, List.forall_mem_cons] at hroom ⊢
    obtain ⟨hsucc, hn'⟩ := succ_shift hlow hnm hn hroom.1
    rw [hsucc] at hroom ⊢
    rw [List.map_cons, ih (g := ⟨Supply.succ g.next⟩) hn' hroom.2]

/-- Renaming to fresh ids, one after the other, moves along with the supply. -/
theorem shift_refresh (vs : List Int) (t : Ty) {g : Supply} (hn : n ≤ g.next)
    (hroom : ∀ v ∈ (Supply.freshList ⟨shift n m g.next⟩ vs.length).1, v < Supply.last) :
    Scheme.refresh (vs.map (shift n m)) (t.relabel (shift n m)) ⟨shift n m g.next⟩ =
        ((Scheme.refresh vs t g).1.relabel (shift n m),
          ⟨shift n m (Scheme.refresh vs t g).2.next⟩) ∧
      n ≤ (Scheme.refresh vs t g).2.next := by
  induction vs generalizing t g with
  | nil => exact ⟨rfl, hn⟩
  | cons v vs ih =>
    simp only [List.length_cons, Supply.freshList, Supply.fresh, Supply.after,
      List.forall_mem_cons] at hroom
    obtain ⟨hsucc, hn'⟩ := succ_shift hlow hnm hn hroom.1
    rw [hsucc] at hroom
    have hrename : (t.relabel (shift n m)).rename (shift n m v) (shift n m g.next) =
        (t.rename v g.next).relabel (shift n m) :=
      (Ty.relabel_replace (shift_strictMono hnm).injective t v (.var g.next)).symm
    simp only [List.map_cons, Scheme.refresh, Supply.fresh, Supply.after, hsucc, hrename]
    exact ih _ (g := ⟨Supply.succ g.next⟩) hn' hroom.2

theorem shift_instantiate {st : State} (σ : Scheme) (hn : n ≤ st.supply.next)
    (hw : NoWrap ((st.relabel (shift n m)).instantiate (σ.relabel (shift n m))).2.trace) :
    (st.relabel (shift n m)).instantiate (σ.relabel (shift n m)) =
        ((st.instantiate σ).1.relabel (shift n m), (st.instantiate σ).2.relabel (shift n m)) ∧
      n ≤ (st.instantiate σ).2.supply.next := by
  have hids : (σ.relabel (shift n m)).bound.ids = σ.bound.ids.map (shift n m) :=
    VarSet.ids_relabel (shift_strictMono hnm) σ.bound
  have hsize : (σ.relabel (shift n m)).bound.size = σ.bound.size := by
    rw [VarSet.size_eq_length, hids, List.length_map, VarSet.size_eq_length]
  have hroom : ∀ v ∈ (Supply.freshList ⟨shift n m st.supply.next⟩ σ.bound.size).1,
      v < Supply.last := fun v hv =>
    hw v (List.mem_append_right _ (List.mem_map_of_mem (hsize ▸ hv)))
  obtain ⟨hrefresh, hn'⟩ := shift_refresh hlow hnm σ.bound.ids σ.body hn hroom
  refine ⟨?_, hn'⟩
  have hlist := shift_freshList hlow hnm σ.bound.size hn hroom
  have hinst : (σ.relabel (shift n m)).instantiate ⟨shift n m st.supply.next⟩ =
      ((σ.instantiate st.supply).1.relabel (shift n m),
        ⟨shift n m (σ.instantiate st.supply).2.next⟩) := by
    rw [Scheme.instantiate, hids]
    exact hrefresh
  simp only [instantiate, relabel, hinst, hsize, hlist, List.map_append, List.map_map]
  rfl

end Draw

end State

/-! ### Outcomes that differ by a shift -/

namespace Outcome

variable {τ τ' ρ ρ' : Type}

/-- The outcome with other ids in its state and its failure, its tree and its result changed by the
functions given for them. -/
def relabel (f : Int → Int) (onTree : τ → τ) (onResult : ρ → ρ) (o : Outcome τ ρ) : Outcome τ ρ :=
  ⟨onTree o.tree, o.state.relabel f, match o.result with
    | .ok v => .ok (onResult v)
    | .error g => .error (g.relabel f)⟩

/-- Unless the second outcome has overflowed, it is the first one with the ids from `n` on moved to
`m`. -/
def ShiftedBy (n m : Int) (onTree : τ → τ) (onResult : ρ → ρ) (o o' : Outcome τ ρ) : Prop :=
  NoWrap o'.state.trace → n ≤ o.state.supply.next ∧ o' = o.relabel (shift n m) onTree onResult

/-- The same for a step on one expression. -/
abbrev Shifted (n m : Int) (o o' : Outcome Expr Ty) : Prop :=
  o.ShiftedBy n m (Expr.relabel (shift n m)) (Ty.relabel (shift n m)) o'

variable {n m : Int} {onTree : τ → τ} {onResult : ρ → ρ} {onTree' : τ' → τ'} {onResult' : ρ' → ρ'}

theorem shifted_done {a : τ} {st : State} {v : ρ} (hn : n ≤ st.supply.next) :
    ShiftedBy n m onTree onResult (done a st v)
      (done (onTree a) (st.relabel (shift n m)) (onResult v)) :=
  fun _ => ⟨hn, rfl⟩

theorem shifted_failed {a : τ} {st : State} {g : Failure} (hn : n ≤ st.supply.next) :
    ShiftedBy n m onTree onResult (failed a st g)
      (failed (onTree a) (st.relabel (shift n m)) (g.relabel (shift n m))) :=
  fun _ => ⟨hn, rfl⟩

namespace ShiftedBy

theorem andThen {o o' : Outcome τ ρ} {rebuild rebuild' : τ → τ'}
    {blame : Failure → Failure} {next next' : τ → State → ρ → Outcome τ' ρ'}
    (ho : o.ShiftedBy n m onTree onResult o') (hk : ∀ a st v, (next' a st v).Keeps st)
    (hrebuild : ∀ a, rebuild' (onTree a) = onTree' (rebuild a))
    (hblame : ∀ g, blame (g.relabel (shift n m)) = (blame g).relabel (shift n m))
    (h : ∀ a st v, n ≤ st.supply.next → ShiftedBy n m onTree' onResult' (next a st v)
      (next' (onTree a) (st.relabel (shift n m)) (onResult v))) :
    ShiftedBy n m onTree' onResult' (o.andThen rebuild blame next)
      (o'.andThen rebuild' blame next') := by
  intro hw
  obtain ⟨hn, rfl⟩ := ho (hw.of_isPrefix (o'.prefix_andThen rebuild' blame hk))
  obtain ⟨a, st, v | v⟩ := o
  · exact ⟨hn, by simp only [Outcome.andThen, relabel, failed, hrebuild, hblame]⟩
  · exact h a st v hn hw

section Steps

variable {o o' : Outcome Expr Ty} {st : State} {tree : Expr} {a b t : Ty} {k : Nat}
  {next next' : State → Outcome Expr Ty}

/-- Work on a child and then on the node, with the state before the second run known not to have
overflowed. -/
theorem andThen_of_keeps {rebuild rebuild' : Expr → Expr} {blame : Failure → Failure}
    {next next' : Expr → State → Ty → Outcome Expr Ty} (ho : o'.Keeps st)
    (hk : ∀ a st v, (next' a st v).Keeps st)
    (hblame : ∀ g, blame (g.relabel (shift n m)) = (blame g).relabel (shift n m))
    (h : NoWrap st.trace → o.Shifted n m o' ∧
      (∀ e, rebuild' (e.relabel (shift n m)) = (rebuild e).relabel (shift n m)) ∧
      ∀ e st t, n ≤ st.supply.next → Shifted n m (next e st t)
        (next' (e.relabel (shift n m)) (st.relabel (shift n m)) (t.relabel (shift n m)))) :
    Shifted n m (o.andThen rebuild blame next) (o'.andThen rebuild' blame next') := by
  intro hw
  obtain ⟨hshift, hrebuild, hnext⟩ := h (hw.of_isPrefix (ho.andThen hk))
  exact hshift.andThen hk hrebuild hblame hnext hw

theorem unifyThen (hnm : n ≤ m) (hn : n ≤ st.supply.next)
    (h : ∀ st, n ≤ st.supply.next → Shifted n m (next st) (next' (st.relabel (shift n m)))) :
    Shifted n m (st.unifyThen tree a b next)
      ((st.relabel (shift n m)).unifyThen (tree.relabel (shift n m)) (a.relabel (shift n m))
        (b.relabel (shift n m)) next') := by
  have hsupply : (st.unify a b).1.supply = st.supply := by
    simp only [State.unify]
    split <;> rfl
  rw [State.unifyThen, State.unifyThen, State.relabel_unify (shift_strictMono hnm).injective]
  rcases hu : st.unify a b with ⟨st₁, _ | e⟩
  · rw [hu] at hsupply
    exact h st₁ (hsupply ▸ hn)
  · rw [hu] at hsupply
    exact shifted_failed (hsupply ▸ hn)

theorem constrain (hnm : n ≤ m) (hn : n ≤ st.supply.next) :
    Shifted n m (st.constrain tree a b t)
      ((st.relabel (shift n m)).constrain (tree.relabel (shift n m)) (a.relabel (shift n m))
        (b.relabel (shift n m)) (t.relabel (shift n m))) :=
  unifyThen hnm hn fun _ hn => shifted_done hn

theorem leaveThen (hn : n ≤ st.supply.next)
    (h : ∀ st, n ≤ st.supply.next → Shifted n m (next st) (next' (st.relabel (shift n m)))) :
    Shifted n m (st.leaveThen tree k next)
      ((st.relabel (shift n m)).leaveThen (tree.relabel (shift n m)) k next') := by
  rw [State.leaveThen, State.leaveThen, State.relabel_leave?]
  cases hl : st.leave? k with
  | none => exact shifted_failed hn
  | some st₁ =>
    obtain ⟨-, rfl⟩ := State.leave?_eq_some.1 hl
    exact h _ hn

theorem leaving {rebuild rebuild' : Expr → Expr} {i : Nat} (ho : o.Shifted n m o')
    (hrebuild : ∀ e, rebuild' (e.relabel (shift n m)) = (rebuild e).relabel (shift n m)) :
    Shifted n m (o.leaving rebuild i k) (o'.leaving rebuild' i k) := by
  intro hw
  rw [state_trace_leaving] at hw
  obtain ⟨hn, rfl⟩ := ho hw
  have hleave : (o.relabel (shift n m) (Expr.relabel (shift n m))
      (Ty.relabel (shift n m))).state.leave? k =
      (o.state.leave? k).map (·.relabel (shift n m)) := State.relabel_leave? _ _
  rw [Outcome.leaving, Outcome.leaving, hleave]
  cases hl : o.state.leave? k with
  | none => exact ⟨hn, congrArg (failed · _ _) (hrebuild o.tree)⟩
  | some st₁ =>
    obtain ⟨-, rfl⟩ := State.leave?_eq_some.1 hl
    obtain ⟨e, st, v | v⟩ := o
    · exact ⟨hn, congrArg (failed · _ _) (hrebuild e)⟩
    · exact ⟨hn, congrArg (done · _ _) (hrebuild e)⟩

end Steps

end ShiftedBy

end Outcome

/-! ### Runs -/

section Runs

variable {n m : Int}

theorem Expr.relabel_letIn (b : Binding) (v e : Expr) :
    (Expr.letIn b v e).relabel f = .letIn (b.relabel f) (v.relabel f) (e.relabel f) := by
  rw [relabel, mapSlots, Binding.mapSlot_relabel]
  rfl

theorem Expr.relabel_letRec (fn : Binding) (args : List Binding) (body rest : Expr) :
    (Expr.letRec fn args body rest).relabel f =
      .letRec (fn.relabel f) (args.map (·.relabel f)) (body.relabel f) (rest.relabel f) := by
  rw [relabel, mapSlots, Binding.mapSlot_relabel]
  simp only [Binding.mapSlot_relabel]
  rfl

theorem Expr.relabel_letTuple (vars : List Binding) (v e : Expr) :
    (Expr.letTuple vars v e).relabel f =
      .letTuple (vars.map (·.relabel f)) (v.relabel f) (e.relabel f) := by
  rw [relabel, mapSlots]
  simp only [Binding.mapSlot_relabel]
  rfl

theorem Expr.relabel_app (fn : Expr) (args : List Expr) (t : Ty) :
    (Expr.app fn args t).relabel f =
      .app (fn.relabel f) (mapSlotsAll (Ty.relabel f) args) (t.relabel f) := by
  rw [relabel, mapSlots]
  cases t <;> rfl

mutual

/-- Inference commutes with a shift of the fresh ids. -/
theorem infer_shifted (hlow : Supply.first ≤ n) (hnm : n ≤ m) : (e : Expr) → (st : State) →
    n ≤ st.supply.next →
      Shifted n m (infer e st) (infer (e.relabel (shift n m)) (st.relabel (shift n m)))
  | .absent, _, hn => shifted_failed hn
  | .foreign _, _, hn => shifted_failed hn
  | .unit, _, hn => shifted_done hn
  | .bool _, _, hn => shifted_done hn
  | .int _, _, hn => shifted_done hn
  | .var x, st, hn => by
    have hlookup : (st.relabel (shift n m)).env.lookup x =
        (st.env.lookup x).map (·.relabel (shift n m)) := Env.lookup_relabel _ x
    change Shifted _ _ (infer (.var x) st) (infer (.var x) (st.relabel (shift n m)))
    rw [infer, infer, hlookup]
    cases st.env.lookup x with
    | none => exact shifted_failed hn
    | some σ =>
      intro hw
      obtain ⟨heq, hn'⟩ := State.shift_instantiate hlow hnm σ hn hw
      refine ⟨hn', ?_⟩
      simp only [Option.map_some, heq]
      rfl
  | .not e, st, hn =>
    (infer_shifted hlow hnm e st hn).andThen (fun _ st t => keeps_constrain st _ _ t _)
      (fun _ => rfl) (fun _ => rfl) fun _ _ _ hn => .constrain hnm hn
  | .neg e, st, hn =>
    (infer_shifted hlow hnm e st hn).andThen (fun _ st t => keeps_constrain st _ _ t _)
      (fun _ => rfl) (fun _ => rfl) fun _ _ _ hn => .constrain hnm hn
  | .arith op l r, st, hn =>
    (infer_shifted hlow hnm l st hn).andThen (fun _ st t₁ =>
      (infer_keeps _ st).andThen fun _ st t₂ => keeps_unifyThen st _ t₁ t₂ fun st =>
        keeps_constrain st _ t₁ _ _) (fun _ => rfl) (fun _ => rfl) fun _ st t₁ hn =>
    (infer_shifted hlow hnm r st hn).andThen (fun _ st t₂ => keeps_unifyThen st _ _ t₂ fun st =>
        keeps_constrain st _ _ _ _) (fun _ => rfl) (fun _ => rfl) fun _ _ _ hn =>
    .unifyThen hnm hn fun _ hn => .constrain hnm hn
  | .eq l r, st, hn =>
    (infer_shifted hlow hnm l st hn).andThen (fun _ st t₁ =>
      (infer_keeps _ st).andThen fun _ st t₂ => keeps_constrain st _ t₁ t₂ _) (fun _ => rfl)
      (fun _ => rfl) fun _ st t₁ hn =>
    (infer_shifted hlow hnm r st hn).andThen (fun _ st t₂ => keeps_constrain st _ _ t₂ _)
      (fun _ => rfl) (fun _ => rfl) fun _ _ _ hn => .constrain hnm hn
  | .le l r, st, hn =>
    (infer_shifted hlow hnm l st hn).andThen (fun _ st t₁ => keeps_unifyThen st _ _ t₁ fun st =>
      (infer_keeps _ st).andThen fun _ st t₂ => keeps_constrain st _ _ t₂ _) (fun _ => rfl)
      (fun _ => rfl) fun _ _ _ hn => .unifyThen hnm hn fun st hn =>
    (infer_shifted hlow hnm r st hn).andThen (fun _ st t₂ => keeps_constrain st _ _ t₂ _)
      (fun _ => rfl) (fun _ => rfl) fun _ _ _ hn => .constrain hnm hn
  | .ite c e₁ e₂, st, hn =>
    (infer_shifted hlow hnm c st hn).andThen (fun _ st t₁ => keeps_unifyThen st _ _ t₁ fun st =>
      (infer_keeps _ st).andThen fun _ st t₂ => (infer_keeps _ st).andThen fun _ st t₃ =>
        keeps_unifyThen st _ t₂ t₃ fun _ => List.prefix_refl _) (fun _ => rfl) (fun _ => rfl)
      fun _ _ _ hn => .unifyThen hnm hn fun st hn =>
    (infer_shifted hlow hnm e₁ st hn).andThen (fun _ st t₂ => (infer_keeps _ st).andThen
      fun _ st t₃ => keeps_unifyThen st _ t₂ t₃ fun _ => List.prefix_refl _) (fun _ => rfl)
      (fun _ => rfl) fun _ st t₂ hn =>
    (infer_shifted hlow hnm e₂ st hn).andThen (fun _ st t₃ => keeps_unifyThen st _ _ t₃ fun _ =>
      List.prefix_refl _) (fun _ => rfl) (fun _ => rfl) fun _ _ _ hn =>
    .unifyThen hnm hn fun st hn => by
      have happly : (t₂.relabel (shift n m)).apply (st.relabel (shift n m)).subst =
          (t₂.apply st.subst).relabel (shift n m) :=
        (Ty.relabel_apply (shift_strictMono hnm).injective t₂ st.subst).symm
      rw [happly]
      exact shifted_done hn
  | .letIn b v e, st, hn => by
    have hf := (shift_strictMono hnm).injective
    rw [Expr.relabel_letIn]
    rcases hp : st.declare b with ⟨b₁, st₁⟩
    rcases hp' : (st.relabel (shift n m)).declare (b.relabel (shift n m)) with ⟨b', st'⟩
    simp only [infer, hp, hp']
    refine .andThen_of_keeps (infer_keeps _ st') (fun _ st t => keeps_unifyThen st _ _ t fun st =>
      (Keeps.of_refresh [st.resolve b'] (infer_keeps _ _)).leaving _ 1 1) (fun _ => rfl)
      fun hw => ?_
    obtain ⟨heq, hn₁⟩ := State.shift_declare hlow hnm b hn (by rwa [hp'])
    rw [hp] at hn₁
    simp only [hp, hp', Prod.mk.injEq] at heq
    obtain ⟨rfl, rfl⟩ := heq
    refine ⟨infer_shifted hlow hnm v st₁ hn₁, fun _ => (Expr.relabel_letIn ..).symm,
      fun v' st₂ t hn₂ => ?_⟩
    rw [← Expr.relabel_letIn]
    refine .unifyThen hnm hn₂ fun st₃ hn₃ => ?_
    rw [State.relabel_refresh hf, State.relabel_resolve hf, State.relabel_bind hf]
    exact (infer_shifted hlow hnm e (st₃.refresh.bind (st₃.refresh.resolve b₁)) hn₃).leaving
      fun _ => (Expr.relabel_letIn ..).symm
  | .letRec fn args body rest, st, hn => by
    have hf := (shift_strictMono hnm).injective
    rw [Expr.relabel_letRec]
    rcases hp : st.declare fn with ⟨fn₁, st₁⟩
    rcases hq : (st₁.pushMono fn₁.name fn₁.slot).enter args with ⟨args₁, st₂⟩
    rcases hp' : (st.relabel (shift n m)).declare (fn.relabel (shift n m)) with ⟨fn', st'⟩
    rcases hq' : (st'.pushMono fn'.name fn'.slot).enter (args.map (·.relabel (shift n m))) with
      ⟨args', st''⟩
    simp only [infer, hp, hq, hp', hq']
    refine .andThen_of_keeps (infer_keeps _ st'') (fun _ st _ => keeps_leaveThen st _ _ fun st =>
      keeps_unifyThen st _ _ _ fun st =>
        (Keeps.of_refresh [st.resolve fn'] (infer_keeps _ _)).leaving _ 1 1) (fun _ => rfl)
      fun hw => ?_
    have henter : ∀ (st : State) (b : Binding) (bs : List Binding) (p : Binding × State)
        (q : List Binding × State), st.declare b = p →
        (p.2.pushMono p.1.name p.1.slot).enter bs = q →
        st.enter (b :: bs) = (p.1 :: q.1, q.2) := by
      rintro st b bs p q rfl rfl
      rfl
    obtain ⟨heq, hn₂⟩ := State.shift_enter hlow hnm (fn :: args) hn
      (by rwa [List.map_cons, henter _ _ _ _ _ hp' hq'])
    rw [List.map_cons, henter _ _ _ _ _ hp' hq', henter _ _ _ _ _ hp hq] at heq
    rw [henter _ _ _ _ _ hp hq] at hn₂
    simp only [List.map_cons, Prod.mk.injEq, List.cons.injEq] at heq
    obtain ⟨⟨rfl, rfl⟩, rfl⟩ := heq
    refine ⟨infer_shifted hlow hnm body st₂ hn₂, fun _ => (Expr.relabel_letRec ..).symm,
      fun body' st₃ ret hn₃ => ?_⟩
    rw [← Expr.relabel_letRec, List.length_map, Binding.map_slot_relabel, ← Ty.relabel_arrow]
    refine .leaveThen hn₃ fun st₄ hn₄ => .unifyThen hnm hn₄ fun st₅ hn₅ => ?_
    rw [State.relabel_refresh hf, State.relabel_resolve hf, State.relabel_map_resolve hf,
      State.relabel_bind hf]
    exact (infer_shifted hlow hnm rest (st₅.refresh.bind (st₅.refresh.resolve fn₁)) hn₅).leaving
      fun _ => (Expr.relabel_letRec ..).symm
  | .app fn args slot, st, hn => by
    have hf := (shift_strictMono hnm).injective
    rw [Expr.relabel_app]
    refine (infer_shifted hlow hnm fn st hn).andThen (fun fn' st t =>
      (inferAll_keeps 1 _ st).andThen fun args' st ts =>
        (keeps_unifyThen st.freshVar.2 (.app fn' args' (slot.relabel (shift n m)))
          (.arrow ts st.freshVar.1) t fun st₁ =>
            keeps_done (.app fn' args' (st.freshVar.1.apply st₁.subst)) st₁ _).of_isPrefix
          st.trace_prefix_freshVar) (fun _ => (Expr.relabel_app ..).symm) (fun _ => rfl)
      fun fn₁ st₁ t hn₁ => ?_
    refine (inferAll_shifted hlow hnm 1 args st₁ hn₁).andThen (fun args' st ts =>
        (keeps_unifyThen st.freshVar.2 (.app (fn₁.relabel (shift n m)) args'
          (slot.relabel (shift n m))) (.arrow ts st.freshVar.1) (t.relabel (shift n m)) fun st₁ =>
            keeps_done (.app (fn₁.relabel (shift n m)) args' (st.freshVar.1.apply st₁.subst))
              st₁ _).of_isPrefix st.trace_prefix_freshVar)
      (fun _ => (Expr.relabel_app ..).symm) (fun _ => rfl) fun args₁ st₂ ts hn₂ => ?_
    intro hw
    obtain ⟨heq, hn₃⟩ := State.shift_freshVar hlow hnm hn₂ (hw.of_isPrefix (keeps_unifyThen
      (st₂.relabel (shift n m)).freshVar.2 _ _ _ fun st₁ => keeps_done _ st₁ _))
    revert hw
    simp only [heq]
    rw [← Expr.relabel_app, ← Ty.relabel_arrow]
    refine Outcome.ShiftedBy.unifyThen hnm hn₃ fun st₄ hn₄ => ?_
    have happly : (st₂.freshVar.1.relabel (shift n m)).apply (st₄.relabel (shift n m)).subst =
        (st₂.freshVar.1.apply st₄.subst).relabel (shift n m) :=
      (Ty.relabel_apply hf _ st₄.subst).symm
    rw [happly, ← Expr.relabel_app]
    exact shifted_done hn₄
  | .tuple es, st, hn =>
    (inferAll_shifted hlow hnm 0 es st hn).andThen (fun _ _ _ => List.prefix_refl _)
      (fun _ => rfl) (fun _ => rfl) fun _ st ts hn => by
      rw [← Ty.relabel_tuple]
      exact shifted_done hn
  | .letTuple vars v e, st, hn => by
    have hf := (shift_strictMono hnm).injective
    rw [Expr.relabel_letTuple]
    rcases hp : st.enter vars with ⟨vars₁, st₁⟩
    rcases hp' : (st.relabel (shift n m)).enter (vars.map (·.relabel (shift n m))) with ⟨vars', st'⟩
    simp only [infer, hp, hp']
    refine .andThen_of_keeps (infer_keeps _ st') (fun _ st t =>
      keeps_leaveThen st _ _ fun st => keeps_unifyThen st _ t _ fun _ =>
        (Keeps.of_refresh _ (infer_keeps _ _)).leaving _ 1 _) (fun _ => rfl) fun hw => ?_
    obtain ⟨heq, hn₁⟩ := State.shift_enter hlow hnm vars hn (by rwa [hp'])
    rw [hp] at hn₁
    simp only [hp, hp', Prod.mk.injEq] at heq
    obtain ⟨rfl, rfl⟩ := heq
    refine ⟨infer_shifted hlow hnm v st₁ hn₁, fun _ => (Expr.relabel_letTuple ..).symm,
      fun v' st₂ t hn₂ => ?_⟩
    rw [← Expr.relabel_letTuple, List.length_map, Binding.map_slot_relabel, ← Ty.relabel_tuple]
    refine .leaveThen hn₂ fun st₃ hn₃ => .unifyThen hnm hn₃ fun st₄ hn₄ => ?_
    rw [State.relabel_refresh hf, State.relabel_map_resolve hf, State.relabel_foldl_bind hf]
    simp only [List.length_map]
    refine (infer_shifted hlow hnm e ((vars₁.map st₄.refresh.resolve).foldl State.bind st₄.refresh)
      ?_).leaving fun _ => (Expr.relabel_letTuple ..).symm
    rw [State.supply_foldl_bind]
    exact hn₄

theorem inferAll_shifted (hlow : Supply.first ≤ n) (hnm : n ≤ m) (i : Nat) : (es : List Expr) →
    (st : State) → n ≤ st.supply.next →
    ShiftedBy n m (Expr.mapSlotsAll (Ty.relabel (shift n m))) (List.map (Ty.relabel (shift n m)))
      (inferAll i es st)
      (inferAll i (Expr.mapSlotsAll (Ty.relabel (shift n m)) es) (st.relabel (shift n m)))
  | [], _, hn => shifted_done hn
  | e :: es, st, hn =>
    (infer_shifted hlow hnm e st hn).andThen (fun _ st _ =>
      (inferAll_keeps (i + 1) _ st).andThen fun _ _ _ => List.prefix_refl _) (fun _ => rfl)
      (fun _ => rfl) fun _ st _ hn =>
    (inferAll_shifted hlow hnm (i + 1) es st hn).andThen (fun _ _ _ => List.prefix_refl _)
      (fun _ => rfl) (fun _ => rfl) fun _ _ _ hn => shifted_done hn

end

end Runs

/-! ### Whole passes -/

/-- The verdict with other ids in its types. -/
def Verdict.relabel (f : Int → Int) : Verdict → Verdict
  | .inferred t => .inferred (t.relabel f)
  | .failed e => .failed (e.relabel f)
  | .stopped k => .stopped k

/-- The node to blame, at the same place, with other ids in its slots. -/
def Invalid.relabel (f : Int → Int) (i : Invalid) : Invalid :=
  ⟨i.place, i.expr.relabel f⟩

/-- The pass `p'` is `p` with other ids: it ends alike, leaves the same tree and the same
substitution behind, and blames the same node for the same reason. If both contexts have a supply,
the next ids correspond too. -/
structure Pass.Corresponds (f : Int → Int) (p p' : Pass) : Prop where
  verdict : p'.verdict = p.verdict.relabel f
  given : p'.given = p.given.relabel f
  tree : p'.tree = p.tree.relabel f
  subst : p'.context.subst = p.context.subst.relabel f
  error : p'.context.error = p.context.error.map (·.relabel f)
  invalid : p'.context.invalid = p.context.invalid.map (·.relabel f)
  trace : p'.trace = p.trace.map (·.relabel f)
  next : ∀ g g', p.context.supply = some g → p'.context.supply = some g' → g'.next = f g.next

theorem Env.relabel_eq_self {env : Env} (h : ∀ v ∈ env.ids, f v = v) : env.relabel f = env := by
  refine (List.map_congr_left fun x hx => ?_).trans (List.map_id' env)
  have hids : ∀ v ∈ x.scheme.body.vars ++ x.scheme.bound.ids, f v = v :=
    fun v hv => h v (List.mem_flatMap.2 ⟨x, hx, hv⟩)
  rw [List.forall_mem_append] at hids
  rw [Scheme.relabel_eq_self hids.1 hids.2]

theorem Expr.relabel_eq_self {e : Expr} (h : ∀ v ∈ e.slotVars, f v = v) : e.relabel f = e :=
  mapSlots_eq_self fun s hs => Ty.relabel_eq_self fun v hv =>
    h v (List.mem_flatMap.2 ⟨s, hs, hv⟩)

namespace Context

/-- Contexts that conclude with outcomes that differ by a function on ids. -/
theorem conclude_relabel (hf : Injective f) (gen gen' : Option Supply) (o : Outcome Expr Ty) :
    ((fresh gen).conclude o).Corresponds f
      ((fresh gen').conclude (o.relabel f (Expr.relabel f) (Ty.relabel f))) := by
  have hnext : ∀ g g' : Supply, (gen.map fun _ => o.state.supply) = some g →
      (gen'.map fun _ => (o.state.relabel f).supply) = some g' → g'.next = f g.next := by
    intro g g' hg hg'
    obtain ⟨-, -, rfl⟩ := Option.map_eq_some_iff.1 hg
    obtain ⟨-, -, rfl⟩ := Option.map_eq_some_iff.1 hg'
    rfl
  obtain ⟨e, st, g | t⟩ := o
  · refine ⟨rfl, rfl, rfl, rfl, rfl, ?_, rfl, hnext⟩
    change (g.place.bind fun p => ((e.relabel f).at? p).map (Invalid.mk p)) =
      (g.place.bind fun p => (e.at? p).map (Invalid.mk p)).map (·.relabel f)
    rw [Option.map_bind]
    congr 1
    funext p
    rw [Expr.relabel, Expr.at?_mapSlots, Option.map_map, Function.comp_apply, Option.map_map]
    rfl
  · have htree : (e.relabel f).mapSlots (·.apply (st.subst.relabel f)) =
        (e.mapSlots (·.apply st.subst)).relabel f := by
      rw [Expr.relabel, Expr.relabel, Expr.mapSlots_mapSlots (Ty.apply_absent _),
        Expr.mapSlots_mapSlots rfl]
      simp only [Ty.relabel_apply hf]
    exact ⟨congrArg Verdict.inferred (Ty.relabel_apply hf t st.subst).symm, htree, htree, rfl, rfl,
      rfl, rfl, hnext⟩

/-- A start above the ids in slots and bodies, as a pass without a supply has it, and above those
that the schemes list as quantified. -/
theorem lt_start {gen : Option Supply} {env : Env} {root : Expr} {g : Supply}
    (hg : (fresh gen).passSupply env root = .ok g)
    (hstart : gen = none ∧ env.maxVar root.maxVar < Supply.last ∨
      Supply.first ≤ g.next ∧
        ∀ v ∈ root.slotVars ++ env.flatMap (·.scheme.body.vars), v < g.next)
    (hlisted : ∀ x ∈ env, ∀ v ∈ x.scheme.bound.ids, v < g.next) :
    Supply.first ≤ g.next ∧ ∀ v ∈ root.slotVars ++ env.ids, v < g.next := by
  have hoccur : Supply.first ≤ g.next ∧
      ∀ v ∈ root.slotVars ++ env.flatMap (·.scheme.body.vars), v < g.next := by
    rcases hstart with ⟨rfl, hroom⟩ | habove
    · obtain rfl := eq_of_passSupply rfl hroom hg
      exact ⟨env.first_le_maxVar root, env.lt_maxVar root⟩
    · exact habove
  obtain ⟨hword, hoccur⟩ := hoccur
  rw [List.forall_mem_append] at hoccur
  refine ⟨hword, List.forall_mem_append.2 ⟨hoccur.1, fun v hv => ?_⟩⟩
  obtain ⟨x, hx, hvx⟩ := List.mem_flatMap.1 hv
  rcases List.mem_append.1 hvx with hbody | hbound
  · exact hoccur.2 v (List.mem_flatMap.2 ⟨x, hx, hbody⟩)
  · exact hlisted x hx v hbound

/-- **Where fresh ids start makes no difference**, as long as it is above all ids there are. Two
passes over a tree in an environment that start there and do not overflow correspond to each other:
the ids that were there before stay as they are, and the fresh ones move from the one start to the
other. A context without a supply of its own starts above the ids in slots and bodies by itself. It
does not look at the ids that a scheme only lists as quantified, so these have to lie below its
start as well: see `infer_listed`. -/
theorem infer_shift {gen gen' : Option Supply} {env : Env} {root : Expr} {g g' : Supply}
    (hg : (fresh gen).passSupply env root = .ok g)
    (hg' : (fresh gen').passSupply env root = .ok g') (hle : g.next ≤ g'.next)
    (hstart : gen = none ∧ env.maxVar root.maxVar < Supply.last ∨
      Supply.first ≤ g.next ∧
        ∀ v ∈ root.slotVars ++ env.flatMap (·.scheme.body.vars), v < g.next)
    (hlisted : ∀ x ∈ env, ∀ v ∈ x.scheme.bound.ids, v < g.next)
    (hroom : NoWrap ((fresh gen').infer env root).trace) :
    ((fresh gen).infer env root).Corresponds (shift g.next g'.next)
      ((fresh gen').infer env root) := by
  obtain ⟨hword, hbelow⟩ := lt_start hg hstart hlisted
  have hfix : ∀ v ∈ root.slotVars ++ env.ids, shift g.next g'.next v = v :=
    fun v hv => shift_of_lt (hbelow v hv)
  rw [List.forall_mem_append] at hfix
  have hnext : shift g.next g'.next g.next = g'.next := by
    rw [shift_of_le (Int.le_refl _)]
    omega
  have hstate : (State.mk env [] g []).relabel (shift g.next g'.next) = ⟨env, [], g', []⟩ := by
    rw [State.relabel, Env.relabel_eq_self hfix.2, hnext]
    rfl
  cases hroot : root.isAbsent with
  | true =>
    rw [infer, infer, hroot, if_pos rfl, if_pos rfl]
    refine ⟨rfl, (Expr.relabel_eq_self hfix.1).symm, (Expr.relabel_eq_self hfix.1).symm, rfl, rfl,
      rfl, rfl, fun h h' hh hh' => ?_⟩
    change gen = some h at hh
    change gen' = some h' at hh'
    subst hh hh'
    obtain rfl : h = g := Except.ok.inj hg
    obtain rfl : h' = g' := Except.ok.inj hg'
    exact hnext.symm
  | false =>
    rw [trace_infer hg' hroot] at hroom
    rw [infer_eq_conclude hg hroot, infer_eq_conclude hg' hroot]
    have hrun := infer_shifted hword hle root ⟨env, [], g, []⟩ (Int.le_refl _)
    rw [Expr.relabel_eq_self hfix.1, hstate] at hrun
    rw [(hrun hroom).2]
    exact conclude_relabel (shift_strictMono hle).injective gen gen' _

/-- A context without a supply starts at 3, above the ids of the environment and the tree. It does
what a context with a supply that starts at 10 does, and so does one with a supply that starts
at 3. -/
theorem infer_shift_idTwice :
    (fresh none).passSupply pairEnv idTwice = .ok ⟨3⟩ ∧
      ((fresh none).infer pairEnv idTwice).Corresponds (shift 3 10)
        ((fresh (some ⟨10⟩)).infer pairEnv idTwice) ∧
      ((fresh (some ⟨3⟩)).infer pairEnv idTwice).Corresponds (shift 3 10)
        ((fresh (some ⟨10⟩)).infer pairEnv idTwice) := by
  have hstart : (fresh none).passSupply pairEnv idTwice = .ok ⟨3⟩ := by
    cbv
  have hroom : NoWrap ((fresh (some ⟨10⟩)).infer pairEnv idTwice).trace :=
    noWrap_iff.2 (by cbv)
  exact ⟨hstart,
    infer_shift hstart rfl (by decide) (.inl ⟨rfl, by decide⟩) (by decide) hroom,
    infer_shift rfl rfl (by decide) (.inr ⟨by decide, by decide⟩) (by decide) hroom⟩

/-- **A start below a listed id makes a difference.** The scheme of the environment lists an id that
its body does not have. A context without a supply starts below it, a supply that starts above all
ids is at hand, and neither of the two overflows; but whatever is done to the ids, the two passes do
not correspond. The one finds a type, the other finds that the types do not fit. -/
theorem infer_listed :
    (fresh none).passSupply (listing 3) mixedCalls = .ok ⟨1⟩ ∧
      (∀ v ∈ mixedCalls.slotVars ++ (listing 3).ids, v < 4) ∧
      NoWrap ((fresh none).infer (listing 3) mixedCalls).trace ∧
      NoWrap ((fresh (some ⟨4⟩)).infer (listing 3) mixedCalls).trace ∧
      ∀ f, ¬ ((fresh none).infer (listing 3) mixedCalls).Corresponds f
        ((fresh (some ⟨4⟩)).infer (listing 3) mixedCalls) := by
  have hfound : ((fresh none).infer (listing 3) mixedCalls).verdict = .inferred .int := by
    cbv
  have hfailed : ((fresh (some ⟨4⟩)).infer (listing 3) mixedCalls).verdict =
      .failed (.type ⟨.mismatch, .bool, .int⟩) := by
    cbv
  refine ⟨by cbv, by decide, noWrap_iff.2 (by cbv), noWrap_iff.2 (by cbv), fun f h => ?_⟩
  have hverdict := h.verdict
  rw [hfound, hfailed] at hverdict
  cases hverdict

end Context

end LetPoly
