import LetPoly.Proofs.Principality
import LetPoly.Proofs.Relabelling

/-!
# States on annotated trees

The slots of a tree may hold the types of a derivation. Inference then finds variables that many
slots share, and it may replace some of them by others. But there is a solution that leaves the
variables of the slots alone, so inference never learns that one of them is anything else than a
variable, nor that two of them are the same. Hence the environment stays that of the derivation with
other ids, and types are generalized just as in the derivation.

## Main definitions

* `Scheme.Traced`, `Entry.Echoes`: a scheme of the derivation with other ids, and an entry with it.
* `State.Echoes`: the environment of a state is that of the derivation with other ids.
* `Advances`: a later state, with a solution that goes on from that of an earlier one.

## Main results

* `State.Echoes.unify`, `State.Echoes.enter`, `State.Echoes.leave`: the steps of inference.
* `Scheme.Traced.exists_apply`, `State.Echoes.refresh`: bringing the environment up to date.
* `State.Echoes.rest`: generalization.
-/

namespace LetPoly

variable {A : Int → Prop} {θ θ' : Int → Ty} {Γ : Env} {st st' : State}

/-! ### Schemes with other ids -/

/-- The type in the slot is complete and has its ids in the zone `A`. -/
def Binding.Anchored (A : Int → Prop) (b : Binding) : Prop :=
  b.slot.Complete ∧ b.slot.Within A

theorem Binding.Anchored.declare_eq {b : Binding} (h : b.Anchored A) (st : State) :
    st.declare b = (b, st) := by
  rw [State.declare, h.1.isAbsent_eq_false, if_neg Bool.false_ne_true]

/-- The type is complete and has only ids that have been handed out. -/
def State.Knows (st : State) (t : Ty) : Prop :=
  t.Complete ∧ t.Within (· < st.supply.next)

/-- The scheme `σ` of a derivation turns up in a state with the ids `κ v` in place of `v`. The
solution turns them back, and the substitution does not tell a free id from the one it stands
for. -/
structure Scheme.Traced (A : Int → Prop) (θ : Int → Ty) (st : State) (σ : Scheme)
    (κ : Equiv.Perm Int) : Prop where
  complete : σ.body.Complete
  within : σ.body.Within A
  bound : ∀ v, v ∈ σ.bound → v ∈ σ.body.vars
  back : ∀ v ∈ σ.body.vars, θ (κ v) = .var v
  below : ∀ v ∈ σ.body.vars, κ v < st.supply.next
  free : ∀ v, v ∈ σ.freeVars → st.subst.eval (κ v) = st.subst.eval v

/-- The entry `y` of a state is the entry `x` of a derivation with other ids. -/
def Entry.Echoes (A : Int → Prop) (θ : Int → Ty) (st : State) (x y : Entry) : Prop :=
  ∃ κ : Equiv.Perm Int, y = ⟨x.name, x.scheme.relabel κ⟩ ∧ x.scheme.Traced A θ st κ

/-- A state on an annotated tree. The ids in the zone `A` of the slots are left alone by the
solution, and the environment is that of the derivation with other ids. -/
structure State.Echoes (A : Int → Prop) (θ : Int → Ty) (Γ : Env) (st : State) : Prop where
  low : Supply.first ≤ st.supply.next
  triangular : st.subst.Triangular
  complete : st.subst.Complete
  below : st.subst.Within (· < st.supply.next)
  solves : st.subst.Solves θ
  fixed : ∀ v, A v → θ v = .var v
  anchored : ∀ v, A v → v < st.supply.next
  env : List.Forall₂ (Entry.Echoes A θ st) Γ st.env

/-- Equations for ids that the solution tells from `v` may be left out of a substitution that is
applied to something that the solution turns into `v`. -/
theorem Ty.apply_filter {s : Subst} {p : Equation → Bool} {v : Int} {t : Ty} (hs : s.Solves θ)
    (hp : ∀ q ∈ s, p q = false → θ q.var ≠ .var v) (ht : t.subst θ = .var v) :
    t.apply (s.filter p) = t.apply s := by
  induction s generalizing t with
  | nil => rfl
  | cons q s ih =>
    rw [Subst.Solves, List.forall_mem_cons] at hs
    rw [List.forall_mem_cons] at hp
    cases hq : p q with
    | true =>
      rw [List.filter_cons_of_pos hq, Ty.apply_cons, Ty.apply_cons]
      exact ih hs.2 hp.2 ((Subst.subst_replace hs.1 t).trans ht)
    | false =>
      obtain ⟨w, rfl, hw⟩ := Ty.exists_var_of_subst ht
      have hne : q.var ∉ (Ty.var w).vars := fun hmem =>
        hp.1 hq ((congrArg θ (Ty.mem_vars_var.1 hmem)).trans hw)
      rw [List.filter_cons_of_neg (by rw [hq]; decide), Ty.apply_cons, Ty.replace_eq_self hne]
      exact ih hs.2 hp.2 ht

namespace State.Echoes

variable {κ : Equiv.Perm Int} {σ : Scheme} {t : Ty} {v w : Int}

/-- What an id of the slots has become can be turned back. -/
theorem subst_eval (h : st.Echoes A θ Γ) (hv : A v) : (st.subst.eval v).subst θ = .var v :=
  (h.solves.subst_apply (.var v)).trans (h.fixed v hv)

theorem eval_lt (h : st.Echoes A θ Γ) (hv : v < st.supply.next) (hw : st.subst.eval v = .var w) :
    w < st.supply.next := by
  have hvar : (Ty.var v).Within (· < st.supply.next) := fun u hu => Ty.mem_vars_var.1 hu ▸ hv
  refine hvar.apply h.below w ?_
  change w ∈ (st.subst.eval v).vars
  rw [hw, Ty.mem_vars_var]

theorem eval_eq_of_eval (h : st.Echoes A θ Γ) (hw : st.subst.eval v = .var w) :
    st.subst.eval w = st.subst.eval v := by
  have happly := h.triangular.apply_apply [] (.var v)
  rw [List.append_nil] at happly
  change (st.subst.eval v).apply st.subst = st.subst.eval v at happly
  rw [hw] at happly
  rw [hw]
  exact happly

/-- A type of the slots has been renamed. -/
theorem exists_relabel (h : st.Echoes A θ Γ) (ht : t.Within A) :
    ∃ κ : Equiv.Perm Int, t.apply st.subst = t.relabel κ ∧
      ∀ v ∈ t.vars, st.subst.eval v = .var (κ v) := by
  obtain ⟨κ, hκ⟩ := exists_perm_of_subst fun v hv => h.subst_eval (ht v hv)
  refine ⟨κ, ?_, hκ⟩
  rw [Ty.apply_eq_subst]
  exact Ty.subst_congr hκ

theorem subst_eq_self (h : st.Echoes A θ Γ) (ht : t.Within A) : t.subst θ = t :=
  Ty.subst_eq_self fun v hv => h.fixed v (ht v hv)

theorem map_subst_eq_self (h : st.Echoes A θ Γ) {bs : List Binding}
    (hbs : ∀ b ∈ bs, b.Anchored A) :
    (bs.map (·.slot)).map (·.subst θ) = bs.map (·.slot) := by
  rw [List.map_map]
  exact List.map_congr_left fun b hb => h.subst_eq_self (hbs b hb).2

end State.Echoes

/-! ### Steps -/

/-- The state `st'` comes later than `st`, with a solution that goes on from that of `st`. -/
structure Advances (st : State) (θ : Int → Ty) (st' : State) (θ' : Int → Ty) : Prop where
  isPrefix : st.subst <+: st'.subst
  next_le : st.supply.next ≤ st'.supply.next
  agrees : ∀ v, v < st.supply.next → θ' v = θ v

namespace Advances

variable {st₁ st₂ : State} {θ₁ θ₂ : Int → Ty} {t : Ty}

/-- Only the substitution and the supply count. -/
theorem of_eq (hs : st'.subst = st.subst) (hsup : st'.supply = st.supply) :
    Advances st θ st' θ :=
  ⟨hs ▸ List.prefix_refl _, hsup ▸ Int.le_refl _, fun _ _ => rfl⟩

theorem trans (h : Advances st θ st₁ θ₁) (h' : Advances st₁ θ₁ st₂ θ₂) : Advances st θ st₂ θ₂ :=
  ⟨h.isPrefix.trans h'.isPrefix, Int.le_trans h.next_le h'.next_le, fun v hv =>
    (h'.agrees v (Int.lt_of_lt_of_le hv h.next_le)).trans (h.agrees v hv)⟩

theorem knows (h : Advances st θ st₁ θ₁) (ht : st.Knows t) : st₁.Knows t :=
  ⟨ht.1, ht.2.mono fun _ hv => Int.lt_of_lt_of_le hv h.next_le⟩

theorem subst_eq (h : Advances st θ st₁ θ₁) (ht : st.Knows t) : t.subst θ₁ = t.subst θ :=
  Ty.subst_congr fun v hv => h.agrees v (ht.2 v hv)

end Advances

section Entries

variable {κ : Equiv.Perm Int} {σ : Scheme} {env : Env}

theorem Entry.exists_lookup (h : List.Forall₂ (Entry.Echoes A θ st) Γ env) {x : String}
    (hx : Γ.lookup x = some σ) :
    ∃ κ : Equiv.Perm Int, env.lookup x = some (σ.relabel κ) ∧ σ.Traced A θ st κ := by
  induction h with
  | nil => cases hx
  | @cons a b Γ env hab _ ih =>
    obtain ⟨κ, rfl, htraced⟩ := hab
    change (Env.push Γ a.name a.scheme).lookup x = some σ at hx
    change ∃ κ' : Equiv.Perm Int,
      (Env.push env a.name (a.scheme.relabel κ)).lookup x = some (σ.relabel κ') ∧ _
    rw [Env.lookup_push] at hx ⊢
    by_cases hname : a.name = x
    · rw [if_pos hname] at hx ⊢
      obtain rfl := Option.some.inj hx
      exact ⟨κ, rfl, htraced⟩
    · rw [if_neg hname] at hx ⊢
      exact ih hx

/-- Later on, a scheme is still the same scheme with other ids. -/
theorem Scheme.Traced.mono (h : σ.Traced A θ st κ) (hadv : Advances st θ st' θ') :
    σ.Traced A θ' st' κ := by
  obtain ⟨D, hD⟩ := hadv.isPrefix
  refine ⟨h.complete, h.within, h.bound,
    fun v hv => (hadv.agrees _ (h.below v hv)).trans (h.back v hv),
    fun v hv => Int.lt_of_lt_of_le (h.below v hv) hadv.next_le, fun v hv => ?_⟩
  rw [← hD, Subst.eval_append, Subst.eval_append, h.free v hv]

theorem Entry.Echoes.mono {x y : Entry} (h : x.Echoes A θ st y) (hadv : Advances st θ st' θ') :
    x.Echoes A θ' st' y := by
  obtain ⟨κ, hy, htraced⟩ := h
  exact ⟨κ, hy, htraced.mono hadv⟩

end Entries

namespace State.Echoes

variable {κ : Equiv.Perm Int} {σ : Scheme} {a b t : Ty} {x : String}

/-- Types that the solution makes equal can be made alike. -/
theorem unify (h : st.Echoes A θ Γ) (ha : st.Knows a) (hb : st.Knows b)
    (heq : a.subst θ = b.subst θ) :
    ∃ st', st.unify a b = (st', none) ∧ st'.Echoes A θ Γ ∧ Advances st θ st' θ := by
  obtain ⟨st', hu, hs, hc⟩ := State.exists_unify h.solves h.complete ha.1 hb.1 heq
  obtain ⟨D, hsolved, hsubst, henv, hsupply⟩ := State.unify_eq hu
  have hadv : Advances st θ st' θ :=
    ⟨⟨D, hsubst.symm⟩, hsupply ▸ Int.le_refl _, fun _ _ => rfl⟩
  have htriangular := State.triangular_unify h.triangular a b
  rw [hu] at htriangular
  refine ⟨st', hu, ⟨hsupply ▸ h.low, htriangular, hc, ?_, hs, h.fixed, hsupply ▸ h.anchored, ?_⟩,
    hadv⟩
  · rw [hsubst, hsupply]
    exact Subst.within_append.2 ⟨h.below, hsolved.within
      (List.forall_mem_singleton.2 ⟨ha.2.apply h.below, hb.2.apply h.below⟩)⟩
  · rw [henv]
    exact h.env.imp fun _ _ hxy => hxy.mono hadv

/-- Fresh ids are of no account. -/
theorem raise (h : st.Echoes A θ Γ) (henv : st'.env = st.env) (hs : st'.subst = st.subst)
    (hadv : Advances st θ st' θ') : st'.Echoes A θ' Γ where
  low := Int.le_trans h.low hadv.next_le
  triangular := hs ▸ h.triangular
  complete := hs ▸ h.complete
  below := hs ▸ h.below.mono fun _ hv => Int.lt_of_lt_of_le hv hadv.next_le
  solves := hs ▸ h.solves.congr (h.below.mono hadv.agrees)
  fixed := fun v hv => (hadv.agrees v (h.anchored v hv)).trans (h.fixed v hv)
  anchored := fun v hv => Int.lt_of_lt_of_le (h.anchored v hv) hadv.next_le
  env := by
    rw [henv]
    exact h.env.imp fun _ _ hxy => hxy.mono hadv

/-- Another environment that the derivation has in the same way. -/
theorem of_env {Γ' : Env} (h : st.Echoes A θ Γ) (hs : st'.subst = st.subst)
    (hsup : st'.supply = st.supply) (henv : List.Forall₂ (Entry.Echoes A θ st) Γ' st'.env) :
    st'.Echoes A θ Γ' where
  low := hsup ▸ h.low
  triangular := hs ▸ h.triangular
  complete := hs ▸ h.complete
  below := by
    rw [hs, hsup]
    exact h.below
  solves := hs ▸ h.solves
  fixed := h.fixed
  anchored := hsup ▸ h.anchored
  env := henv.imp fun _ _ hxy => hxy.mono (.of_eq hs hsup)

/-- A name with a type of the slots. -/
theorem pushMono (h : st.Echoes A θ Γ) {b : Binding} (hb : b.Anchored A) :
    (st.pushMono b.name b.slot).Echoes A θ (Γ.pushMono b.name b.slot) := by
  have htraced : (Scheme.mono b.slot).Traced A θ st (Equiv.refl Int) :=
    ⟨hb.1, hb.2, fun v hv => absurd hv (VarSet.not_mem_empty v), fun v hv => h.fixed v (hb.2 v hv),
      fun v hv => h.anchored v (hb.2 v hv), fun _ _ => rfl⟩
  refine h.of_env rfl rfl (.cons ⟨Equiv.refl Int, ?_, htraced⟩ h.env)
  rw [Scheme.relabel_mono, Ty.relabel_eq_self (f := Equiv.refl Int) fun _ _ => rfl]

/-- Names with the types of their slots. -/
theorem enter (h : st.Echoes A θ Γ) {bs : List Binding} (hbs : ∀ b ∈ bs, b.Anchored A) :
    ∃ st', st.enter bs = (bs, st') ∧ st'.subst = st.subst ∧ st'.supply = st.supply ∧
      st'.Echoes A θ (Γ.extend .mono (bs.map (·.name)) (bs.map (·.slot))) := by
  induction bs generalizing st Γ with
  | nil => exact ⟨st, rfl, rfl, rfl, h⟩
  | cons b bs ih =>
    obtain ⟨hb, hbs⟩ := List.forall_mem_cons.1 hbs
    obtain ⟨st', hent, hs, hsup, h'⟩ := ih (h.pushMono hb) hbs
    refine ⟨st', ?_, hs, hsup, h'⟩
    simp only [State.enter, hb.declare_eq, hent]

/-- The scope of some names can be left. -/
theorem leave {xs : Env} (h : st.Echoes A θ (xs ++ Γ)) :
    ∃ st', st.leave? xs.length = some st' ∧ st'.Echoes A θ Γ := by
  have hlen := h.env.length_eq
  rw [List.length_append] at hlen
  refine ⟨_, State.leave?_eq_some.2 ⟨by omega, rfl⟩, h.of_env rfl rfl ?_⟩
  have hdrop := List.forall₂_drop xs.length h.env
  rwa [List.drop_left] at hdrop

end State.Echoes

/-! ### Generalization -/

/-- What is free in the environment of the state is what has become of the free ids of the
derivation. -/
def State.Matches (Γ : Env) (st : State) : Prop :=
  ∀ w, w ∈ st.env.freeVars ↔ ∃ v, v ∈ Γ.freeVars ∧ st.subst.eval v = .var w

/-- The equations that count for a scheme: those for ids that it does not quantify. -/
def Scheme.visible (σ : Scheme) (s : Subst) : Subst :=
  s.filter fun q => !σ.bound.contains q.var

theorem Scheme.mem_visible {σ : Scheme} {s : Subst} {q : Equation} :
    q ∈ σ.visible s ↔ q ∈ s ∧ ¬ q.var ∈ σ.bound := by
  simp [visible, List.mem_filter, VarSet.contains_eq_decide]

/-- Bringing a scheme up to date leaves it the same scheme with other ids: the ids that stand for
quantified ones are passed over, and the solution tells them from all that the free ones become. -/
theorem Scheme.Traced.exists_apply {σ : Scheme} {κ : Equiv.Perm Int} (h : σ.Traced A θ st κ)
    (hst : st.Echoes A θ Γ) :
    ∃ κ' : Equiv.Perm Int, (σ.relabel κ).apply st.subst = σ.relabel κ' ∧ σ.Traced A θ st κ' ∧
      ∀ v, v ∈ σ.freeVars → st.subst.eval v = .var (κ' v) := by
  have hs : ((σ.relabel κ).visible st.subst).Solves θ :=
    fun q hq => hst.solves q (Scheme.mem_visible.1 hq).1
  have hbelow : ((σ.relabel κ).visible st.subst).Within (· < st.supply.next) :=
    fun q hq => hst.below q (Scheme.mem_visible.1 hq).1
  have hback : ∀ v ∈ σ.body.vars,
      (((σ.relabel κ).visible st.subst).eval (κ v)).subst θ = .var v :=
    fun v hv => (hs.subst_apply (.var (κ v))).trans (h.back v hv)
  obtain ⟨κ', hκ'⟩ :=
    exists_perm_of_subst (θ := fun v => ((σ.relabel κ).visible st.subst).eval (κ v)) hback
  have hbound : ∀ v, v ∈ σ.bound → κ v = κ' v := by
    intro v hv
    have heval : ((σ.relabel κ).visible st.subst).eval (κ v) = .var (κ v) :=
      Subst.eval_of_forall_ne fun q hq e => (Scheme.mem_visible.1 hq).2
        (e ▸ (VarSet.mem_relabel_iff κ.injective).2 hv)
    exact Ty.var.inj (heval.symm.trans (hκ' v (h.bound v hv)))
  have hfree : ∀ v, v ∈ σ.freeVars → st.subst.eval v = .var (κ' v) := by
    intro v hv
    obtain ⟨hbody, hnot⟩ := Scheme.mem_freeVars.1 hv
    rw [← h.free v hv, ← hκ' v hbody]
    refine (Ty.apply_filter (t := .var (κ v)) hst.solves (fun q hq hp e => ?_)
      (h.back v hbody)).symm
    have hmem : q.var ∈ (σ.relabel κ).bound := by simpa [VarSet.contains_eq_decide] using hp
    obtain ⟨u, hu, huq⟩ := VarSet.mem_relabel.1 hmem
    rw [← huq, h.back u (h.bound u hu)] at e
    exact hnot (Ty.var.inj e ▸ hu)
  refine ⟨κ', ?_, ⟨h.complete, h.within, h.bound, fun v hv => ?_, fun v hv => ?_, fun v hv => ?_⟩,
    hfree⟩
  · have hbody : (σ.body.relabel κ).apply ((σ.relabel κ).visible st.subst) = σ.body.relabel κ' := by
      rw [Ty.apply_eq_subst, Ty.subst_relabel]
      exact Ty.subst_congr hκ'
    exact congrArg₂ Scheme.mk (VarSet.relabel_congr hbound) hbody
  · have hv' := hback v hv
    rwa [hκ' v hv] at hv'
  · have hvar : (Ty.var (κ v)).Within (· < st.supply.next) :=
      fun u hu => Ty.mem_vars_var.1 hu ▸ h.below v hv
    refine hvar.apply hbelow _ ?_
    change κ' v ∈ (((σ.relabel κ).visible st.subst).eval (κ v)).vars
    rw [hκ' v hv, Ty.mem_vars_var]
  · exact hst.eval_eq_of_eval (hfree v hv)

namespace State.Echoes

/-- Bringing the environment up to date. -/
theorem refresh (h : st.Echoes A θ Γ) : st.refresh.Echoes A θ Γ ∧ st.refresh.Matches Γ := by
  have hentries : List.Forall₂ (fun x y => ∃ κ : Equiv.Perm Int,
      y = ⟨x.name, x.scheme.relabel κ⟩ ∧ x.scheme.Traced A θ st κ ∧
        ∀ v, v ∈ x.scheme.freeVars → st.subst.eval v = .var (κ v)) Γ (st.env.apply st.subst) := by
    rw [Env.apply, List.forall₂_map_right_iff]
    refine h.env.imp fun x y hxy => ?_
    obtain ⟨κ, rfl, htraced⟩ := hxy
    obtain ⟨κ', heq, htraced', hfree⟩ := htraced.exists_apply h
    exact ⟨κ', congrArg (Entry.mk x.name) heq, htraced', hfree⟩
  refine ⟨h.of_env rfl rfl (hentries.imp fun x y hxy => ?_), fun w => ?_⟩
  · obtain ⟨κ, heq, htraced, -⟩ := hxy
    exact ⟨κ, heq, htraced⟩
  · change w ∈ (st.env.apply st.subst).freeVars ↔ ∃ v, v ∈ Γ.freeVars ∧ st.subst.eval v = .var w
    clear h
    generalize st.env.apply st.subst = env at hentries
    induction hentries with
    | nil => simp [Env.freeVars]
    | @cons x y Γ env hxy _ ih =>
      obtain ⟨κ, rfl, -, hfree⟩ := hxy
      have hscheme : w ∈ (x.scheme.relabel κ).freeVars ↔
          ∃ v, v ∈ x.scheme.freeVars ∧ st.subst.eval v = .var w := by
        rw [Scheme.mem_freeVars_relabel κ.injective]
        refine exists_congr fun v => and_congr_right fun hv => ?_
        rw [hfree v hv, Ty.var.injEq]
      change w ∈ (Env.push env x.name (x.scheme.relabel κ)).freeVars ↔
        ∃ v, v ∈ (Env.push Γ x.name x.scheme).freeVars ∧ st.subst.eval v = .var w
      simp only [Env.mem_freeVars_push, hscheme, ih, or_and_right, exists_or]

theorem freeVars_within (h : st.Echoes A θ Γ) {v : Int} (hv : v ∈ Γ.freeVars) : A v := by
  obtain ⟨x, hx, hvx⟩ := Env.mem_freeVars.1 hv
  have henv := h.env
  generalize st.env = env at henv
  obtain ⟨y, -, κ, -, htraced⟩ := exists_of_forall₂ henv.flip hx
  exact htraced.within v (Scheme.mem_freeVars.1 hvx).1

/-- A type of the slots is generalized as in the derivation. -/
theorem bind (h : st.Echoes A θ Γ) (hm : st.Matches Γ) {b : Binding} (hb : b.Anchored A) :
    (st.bind (st.resolve b)).Echoes A θ (Γ.push b.name (Γ.generalize b.slot)) ∧
      (st.bind (st.resolve b)).Matches (Γ.push b.name (Γ.generalize b.slot)) := by
  obtain ⟨κ, hslot, hκ⟩ := h.exists_relabel hb.2
  have hback : ∀ v ∈ b.slot.vars, θ (κ v) = .var v := fun v hv => by
    have hv' := h.subst_eval (hb.2 v hv)
    rwa [hκ v hv] at hv'
  have hgen : st.env.generalize (b.slot.apply st.subst) = (Γ.generalize b.slot).relabel κ := by
    rw [hslot]
    refine congrArg (Scheme.mk · (b.slot.relabel κ)) (VarSet.ext fun w => ?_)
    change w ∈ (st.env.generalize (b.slot.relabel κ)).bound ↔
      w ∈ (Γ.generalize b.slot).bound.relabel κ
    rw [VarSet.mem_relabel, @Env.mem_bound_generalize st.env, Ty.mem_vars_relabel, hm w]
    simp only [Env.mem_bound_generalize]
    constructor
    · rintro ⟨⟨v, hv, rfl⟩, hfree⟩
      exact ⟨v, ⟨hv, fun hfv => hfree ⟨v, hfv, hκ v hv⟩⟩, rfl⟩
    · rintro ⟨v, ⟨hv, hfree⟩, rfl⟩
      refine ⟨⟨v, hv, rfl⟩, ?_⟩
      -- two ids of the slots that have become the same were the same
      rintro ⟨u, hu, hκu⟩
      have hu' := h.subst_eval (h.freeVars_within hu)
      rw [hκu, Ty.subst_var, hback v hv] at hu'
      exact hfree (Ty.var.inj hu' ▸ hu)
  have htraced : (Γ.generalize b.slot).Traced A θ st κ :=
    ⟨hb.1, hb.2, fun v hv => (Env.mem_bound_generalize.1 hv).1, hback,
      fun v hv => h.eval_lt (h.anchored v (hb.2 v hv)) (hκ v hv),
      fun v hv => h.eval_eq_of_eval (hκ v (Env.mem_freeVars_generalize.1 hv).1)⟩
  refine ⟨h.of_env rfl rfl (.cons ⟨κ, ?_, htraced⟩ h.env), fun w => ?_⟩
  · exact congrArg (Entry.mk b.name) hgen
  · change w ∈ (st.env.push b.name (st.env.generalize (b.slot.apply st.subst))).freeVars ↔ _
    simp only [Env.mem_freeVars_push_generalize]
    exact hm w

/-- The scope of names with generalized types. -/
theorem rest (h : st.Echoes A θ Γ) {bs : List Binding} (hbs : ∀ b ∈ bs, b.Anchored A) :
    ((bs.map st.resolve).foldl State.bind st.refresh).Echoes A θ
      (Γ.extend Γ.generalize (bs.map (·.name)) (bs.map (·.slot))) := by
  obtain ⟨hrefresh, hmatches⟩ := h.refresh
  have hresolve : st.resolve = st.refresh.resolve := rfl
  rw [hresolve]
  generalize st.refresh = st₁ at hrefresh hmatches
  clear h hresolve
  induction bs generalizing st₁ Γ with
  | nil => exact hrefresh
  | cons b bs ih =>
    obtain ⟨hb, hbs⟩ := List.forall_mem_cons.1 hbs
    obtain ⟨hbind, hmatches'⟩ := hrefresh.bind hmatches hb
    have hgen : (Γ.push b.name (Γ.generalize b.slot)).generalize = Γ.generalize :=
      Env.generalize_congr fun v => Env.mem_freeVars_push_generalize
    have hih := ih hbs _ hbind hmatches'
    rw [hgen] at hih
    exact hih

end State.Echoes

end LetPoly
