import LetPoly.Proofs.Freshness

/-!
# What a run of inference touches

A run on a part of a tree learns about variables that are live, variables in the slots of that part,
and fresh variables. Everything else stays as it was, so the parts of a tree that come later find
their slots untouched, and variables that have been quantified stay out of reach.

## Main definitions

* `Expr.bindings`, `reserve`: the bindings of a tree, and the variables in their slots.
* `Zone`: the variables that a run on a tree may touch.
* `Ready`: the slots of the bindings to come have not been touched.
* `Framed`: a later state that has touched nothing outside the zone, and a type inside it.
* `Entered`, `Generalized`: the scopes in which the names of a binding expression are in scope.

## Main results

* `Ready.right`: work on some bindings leaves the others untouched.
* `Enters.entered`, `Ready.generalized`: what the two kinds of scopes look like.
* `Infers.framed`: a run stays in its zone.
-/

namespace LetPoly

/-! ### Bindings and their slots -/

mutual

/-- The bindings of a tree, those of a node before those of its children. -/
def Expr.bindings : Expr → List Binding
  | .not e => e.bindings
  | .neg e => e.bindings
  | .arith _ l r => l.bindings ++ r.bindings
  | .eq l r => l.bindings ++ r.bindings
  | .le l r => l.bindings ++ r.bindings
  | .ite c e₁ e₂ => c.bindings ++ e₁.bindings ++ e₂.bindings
  | .letIn b v e => [b] ++ v.bindings ++ e.bindings
  | .letRec fn args body rest => fn :: args ++ body.bindings ++ rest.bindings
  | .app fn args _ => fn.bindings ++ Expr.bindingsAll args
  | .tuple es => Expr.bindingsAll es
  | .letTuple vars v e => vars ++ v.bindings ++ e.bindings
  | _ => []

/-- The bindings of a list of trees, in order. -/
def Expr.bindingsAll : List Expr → List Binding
  | [] => []
  | e :: es => e.bindings ++ Expr.bindingsAll es

end

/-- The slot is empty, or holds a type without variables, or a lone variable. -/
def Binding.Plain (b : Binding) : Prop :=
  b.slot = .absent ∨ (b.slot.Complete ∧ b.slot.vars = []) ∨ ∃ v, b.slot = .var v

/-- The variables in the slots of bindings. -/
def reserve (bs : List Binding) : List Int :=
  bs.flatMap (·.slot.vars)

theorem reserve_append (bs cs : List Binding) : reserve (bs ++ cs) = reserve bs ++ reserve cs :=
  List.flatMap_append

@[simp] theorem mem_reserve_append {bs cs : List Binding} {v : Int} :
    v ∈ reserve (bs ++ cs) ↔ v ∈ reserve bs ∨ v ∈ reserve cs := by
  rw [reserve_append, List.mem_append]

/-- The id has been handed out, but nothing in the state mentions it. -/
structure State.Untouched (st : State) (v : Int) : Prop where
  lt : v < st.supply.next
  subst : st.subst.Within (· ≠ v)
  free : ¬ v ∈ st.env.freeVars
  bound : ¬ st.env.Bounds v

/-- The variables that a run on a tree with these bindings may touch. -/
def Zone (bs : List Binding) (st : State) (v : Int) : Prop :=
  st.Live v ∨ v ∈ reserve bs ∨ st.supply.next ≤ v

/-- The state is regular, and the slots of the bindings have not been touched. -/
structure Ready (bs : List Binding) (st : State) : Prop where
  regular : st.Regular
  plain : ∀ b ∈ bs, b.Plain
  nodup : (reserve bs).Nodup
  untouched : ∀ v ∈ reserve bs, st.Untouched v

namespace State.Untouched

variable {st st' : State} {P : Int → Prop} {v : Int}

theorem not_live (h : st.Untouched v) : ¬ st.Live v := by
  rintro ⟨u, hu, hv⟩
  rcases Subst.mem_vars_eval hv with rfl | ⟨q, hq, hvq⟩
  · exact h.free hu
  · exact (h.subst q hq).2 v hvq rfl

theorem eval_eq (h : st.Untouched v) : st.subst.eval v = .var v :=
  Subst.eval_of_forall_ne fun q hq => (h.subst q hq).1

/-- A step does not touch what is outside its zone. -/
theorem after (h : st.Untouched v) (hr : st.Regular) (he : st.Extends P st') (hv : ¬ P v) :
    st'.Untouched v := by
  obtain ⟨D, hs, hD⟩ := he.grown
  have hsubst : st'.subst.Within (· ≠ v) := by
    rw [hs]
    exact Subst.within_append.2 ⟨h.subst, hD.mono fun w hw e => hv (e ▸ hw.1)⟩
  refine ⟨Int.lt_of_lt_of_le h.lt he.next_le, hsubst, fun hfree => ?_,
    fun hb => h.bound (he.bounds_iff.1 hb)⟩
  rcases he.live_or hr (Regular.live_of_mem_freeVars hfree fun q hq => (hsubst q hq).1) with hl | hp
  · exact h.not_live hl
  · exact hv hp

end State.Untouched

namespace Ready

variable {bs cs : List Binding} {st st' : State} {P : Int → Prop} {v : Int}

theorem left (h : Ready (bs ++ cs) st) : Ready bs st := by
  have hnodup := h.nodup
  rw [reserve_append, List.nodup_append] at hnodup
  exact ⟨h.regular, fun b hb => h.plain b (List.mem_append_left _ hb), hnodup.1,
    fun v hv => h.untouched v (mem_reserve_append.2 (.inl hv))⟩

/-- Steps outside the slots of the bindings keep them ready. -/
theorem after (h : Ready bs st) (he : st.Extends P st') (hP : ∀ v ∈ reserve bs, ¬ P v) :
    Ready bs st' :=
  ⟨he.regular, h.plain, h.nodup, fun v hv => (h.untouched v hv).after h.regular he (hP v hv)⟩

/-- The zone of some bindings does not reach into the slots of the others. -/
theorem not_zone (h : Ready (bs ++ cs) st) (hv : v ∈ reserve cs) : ¬ Zone bs st v := by
  have hnodup := h.nodup
  rw [reserve_append, List.nodup_append] at hnodup
  have hunt : st.Untouched v := h.untouched v (mem_reserve_append.2 (.inr hv))
  rintro (hl | hb | hn)
  · exact hunt.not_live hl
  · exact hnodup.2.2 v hb v hv rfl
  · exact absurd hunt.lt (Int.not_lt.2 hn)

/-- Work on some bindings leaves the others untouched. -/
theorem right (h : Ready (bs ++ cs) st) (he : st.Extends (Zone bs st) st') : Ready cs st' := by
  have hnodup := h.nodup
  rw [reserve_append, List.nodup_append] at hnodup
  have hcs : Ready cs st := ⟨h.regular, fun b hb => h.plain b (List.mem_append_right _ hb),
    hnodup.2.1, fun v hv => h.untouched v (mem_reserve_append.2 (.inr hv))⟩
  exact hcs.after he fun v hv => h.not_zone hv

/-- Quantified variables are out of the zone. -/
theorem not_bounds (h : Ready bs st) (hv : Zone bs st v) : ¬ st.env.Bounds v := by
  rcases hv with hl | hb | hn
  · exact h.regular.not_bounds_of_live hl
  · exact (h.untouched v hb).bound
  · exact fun hb => absurd (h.regular.bounds v hb).1 (Int.not_lt.2 hn)

/-- Unification inside the zone stays inside the zone. -/
theorem unify (h : Ready bs st) {st₁ st₂ : State} {a b : Ty} (he : st.Extends (Zone bs st) st₁)
    (ha : st₁.Confines (Zone bs st) a) (hb : st₁.Confines (Zone bs st) b)
    (hu : st₁.unify a b = (st₂, none)) : st₁.Extends (Zone bs st) st₂ :=
  he.unify (fun _ => h.not_bounds) ha hb hu

end Ready

/-! ### Zones -/

section Zone

variable {bs cs ds : List Binding} {st st₁ st₂ : State} {P : Int → Prop} {t : Ty} {v : Int}

theorem Zone.append_left (h : Zone bs st v) : Zone (bs ++ cs) st v := by
  rcases h with hl | hb | hn
  · exact .inl hl
  · exact .inr (.inl (mem_reserve_append.2 (.inl hb)))
  · exact .inr (.inr hn)

/-- The zone of what comes later, after steps in the zone of what comes first. -/
theorem Zone.after (hr : st.Regular) (he : st.Extends (Zone bs st) st₁) (h : Zone cs st₁ v) :
    Zone (bs ++ cs) st v := by
  rcases h with hl | hb | hn
  · rcases he.live_or hr hl with hl | hz
    · exact .inl hl
    · exact hz.append_left
  · exact .inr (.inl (mem_reserve_append.2 (.inr hb)))
  · exact .inr (.inr (Int.le_trans he.next_le hn))

/-- The state `st'` extends `st` within the zone of the bindings, and so does the type `t`. -/
structure Framed (bs : List Binding) (st st' : State) (t : Ty) : Prop where
  steps : st.Extends (Zone bs st) st'
  confines : st'.Confines (Zone bs st) t

/-- Two pieces of work in a row. -/
theorem Framed.after (hr : st.Regular) (he : st.Extends (Zone bs st) st₁)
    (h : Framed cs st₁ st₂ t) : Framed (bs ++ cs) st st₂ t :=
  have hzone : ∀ v, Zone cs st₁ v → Zone (bs ++ cs) st v := fun _ => Zone.after hr he
  ⟨(he.mono fun _ => Zone.append_left).trans (h.steps.mono hzone), h.confines.mono hzone⟩

/-- A type from the first piece of work is still in the zone after the second one. -/
theorem State.Confines.later (hr : st.Regular) (he : st.Extends (Zone bs st) st₁)
    (h : Framed cs st₁ st₂ t) {u : Ty} (hu : st₁.Confines (Zone bs st) u) :
    st₂.Confines (Zone (bs ++ cs) st) u :=
  (hu.mono fun _ => Zone.append_left).after (h.steps.mono fun _ => Zone.after hr he)

/-- A step inside the zone, with a type that is in the zone from then on. -/
theorem Framed.unify (h : Ready bs st) {a b u : Ty} (he : st.Extends (Zone bs st) st₁)
    (ha : st₁.Confines (Zone bs st) a) (hb : st₁.Confines (Zone bs st) b)
    (hu : st₁.unify a b = (st₂, none)) (ht : st₁.Confines (Zone bs st) u) : Framed bs st st₂ u :=
  have hstep := h.unify he ha hb hu
  ⟨he.trans hstep, ht.after hstep⟩

/-- A fresh variable is in the zone. -/
theorem Framed.draw (h : Framed bs st st₁ t) (hroom : st₁.supply.next < Supply.last) :
    st₁.Extends (Zone bs st) st₁.freshVar.2 ∧
      st₁.freshVar.2.Confines (Zone bs st) st₁.freshVar.1 :=
  ⟨h.steps.regular.freshVar hroom,
    .freshVar h.steps.regular hroom (.inr (.inr h.steps.next_le))⟩

end Zone

/-! ### Bindings that are given types -/

section Scopes

variable {b b' : Binding} {bs bs' cs ds : List Binding} {st st₁ st₂ st₃ st' : State} {t : Ty}

theorem Declares.same_env (h : Declares st b b' st₁) :
    st₁.env = st.env ∧ st₁.subst = st.subst ∧ b'.name = b.name := by
  cases h with
  | given _ => exact ⟨rfl, rfl, rfl⟩
  | fresh _ _ => exact ⟨rfl, rfl, rfl⟩

/-- The type given to a binding is one that the substitution has nothing to say about. -/
theorem Declares.slot (h : Declares st b b' st₁) (hr : Ready [b] st) :
    b'.slot.Complete ∧ b'.slot.apply st₁.subst = b'.slot ∧
      b'.slot.Within fun v => Zone [b] st v ∧ v < st₁.supply.next := by
  cases h with
  | given hb =>
    rcases hr.plain b List.mem_cons_self with habs | ⟨hcomplete, hnil⟩ | ⟨v, hv⟩
    · rw [habs] at hb
      cases hb
    · have hno : ∀ v, v ∉ b.slot.vars := fun v => hnil ▸ List.not_mem_nil
      exact ⟨hcomplete, Ty.apply_eq_self fun q _ => hno q.var, fun v hv => absurd hv (hno v)⟩
    · have hmem : v ∈ reserve [b] := List.mem_flatMap.2
        ⟨b, List.mem_cons_self, hv ▸ Ty.mem_vars_var.2 rfl⟩
      have hunt := hr.untouched v hmem
      rw [hv]
      refine ⟨Ty.complete_var v, hunt.eval_eq, fun w hw => ?_⟩
      rw [Ty.mem_vars_var.1 hw]
      exact ⟨.inr (.inl hmem), hunt.lt⟩
  | fresh hb hroom =>
    refine ⟨Ty.complete_var _, hr.regular.eval_of_le (Int.le_refl _), fun w hw => ?_⟩
    rw [Ty.mem_vars_var.1 hw]
    refine ⟨.inr (.inr (Int.le_refl _)), ?_⟩
    rw [State.next_freshVar hr.regular hroom]
    exact Int.lt_add_one_of_le (Int.le_refl _)

theorem Declares.framed (h : Declares st b b' st₁) (hr : Ready [b] st) :
    Framed [b] st st₁ b'.slot := by
  obtain ⟨hcomplete, happly, hwithin⟩ := h.slot hr
  refine ⟨?_, hcomplete, happly.symm ▸ hwithin⟩
  cases h with
  | given _ => exact .refl hr.regular
  | fresh _ hroom => exact hr.regular.freshVar hroom

/-- A binding whose type is made alike with the type of its value. -/
theorem Declares.framed_unify (h : Declares st b b' st₁) (hr : Ready ([b] ++ cs) st)
    (hf : Framed cs st₁ st₂ t) (hu : st₂.unify b'.slot t = (st₃, none)) :
    Framed ([b] ++ cs) st st₃ b'.slot := by
  have hdecl := h.framed hr.left
  have hval := Framed.after hr.regular hdecl.steps hf
  have hslot := hdecl.confines.later hr.regular hdecl.steps hf
  exact Framed.unify hr hval.steps hslot hval.confines hu hslot

/-- After a binding has been given a type and put in scope, the others are still untouched. -/
theorem Ready.enter (hr : Ready ([b] ++ bs) st) (h : Declares st b b' st₁) :
    Ready bs (st₁.pushMono b'.name b'.slot) := by
  obtain ⟨hcomplete, happly, hwithin⟩ := h.slot hr.left
  obtain ⟨henv, -, -⟩ := h.same_env
  have hready := hr.right (h.framed hr.left).steps
  have hbounds : st₁.Confines (fun v => ¬ st₁.env.Bounds v) b'.slot :=
    (h.framed hr.left).confines.mono fun v hv => henv.symm ▸ hr.left.not_bounds hv
  refine ⟨hready.regular.pushMono hbounds (hwithin.mono fun _ hv => hv.2), hready.plain,
    hready.nodup, fun v hv => ?_⟩
  have hunt := hready.untouched v hv
  refine ⟨hunt.lt, hunt.subst, fun hfree => ?_, fun hb => hunt.bound (State.bounds_pushMono.1 hb)⟩
  rcases Env.mem_freeVars_push.1 hfree with hslot | hfree
  · exact hr.not_zone hv (hwithin v (Scheme.mem_freeVars_mono.1 hslot)).1
  · exact hunt.free hfree

/-- The scope in which bindings are known with their types as they are. -/
structure Entered (bs cs : List Binding) (st : State) (bs' : List Binding) (st' : State) :
    Prop where
  subst_eq : st'.subst = st.subst
  next_le : st.supply.next ≤ st'.supply.next
  names : bs'.map (·.name) = bs.map (·.name)
  env_eq : st'.env = st.env.extend .mono (bs'.map (·.name)) (bs'.map (·.slot))
  slots : ∀ b' ∈ bs', st'.Confines (Zone bs st) b'.slot
  live : ∀ v, st'.Live v → Zone bs st v
  bounds_iff : ∀ v, st'.env.Bounds v ↔ st.env.Bounds v
  ready : Ready cs st'

theorem Enters.entered (h : Enters st bs bs' st') (hr : Ready (bs ++ cs) st) :
    Entered bs cs st bs' st' := by
  induction h with
  | nil =>
    exact ⟨rfl, Int.le_refl _, rfl, rfl, fun _ hb => absurd hb List.not_mem_nil,
      fun v hv => .inl hv, fun _ => Iff.rfl, hr⟩
  | @cons st st₁ st₂ b b' bs bs' hb hbs ih =>
    have hrb : Ready ([b] ++ (bs ++ cs)) st := hr
    obtain ⟨henv, hsubst, hname⟩ := hb.same_env
    have hf := hb.framed hrb.left
    have hin := ih (hrb.enter hb)
    have hzone : ∀ v, Zone bs (st₁.pushMono b'.name b'.slot) v → Zone ([b] ++ bs) st v := by
      rintro v (hlive | hres | hnext)
      · rcases State.live_pushMono.1 hlive with hslot | hlive
        · exact (hf.confines.2 v hslot).1.append_left
        · exact (Zone.after hr.regular hf.steps (.inl hlive))
      · exact .inr (.inl (mem_reserve_append.2 (.inr hres)))
      · exact .inr (.inr (Int.le_trans hf.steps.next_le hnext))
    refine ⟨hin.subst_eq.trans hsubst, Int.le_trans hf.steps.next_le hin.next_le, ?_, ?_, ?_,
      fun v hv => hzone v (hin.live v hv), fun v => ?_, hin.ready⟩
    · rw [List.map_cons, List.map_cons, hname, hin.names]
    · rw [hin.env_eq, List.map_cons, List.map_cons, Env.extend, ← henv]
      rfl
    · refine List.forall_mem_cons.2 ⟨?_, fun c hc => (hin.slots c hc).mono hzone⟩
      exact (hf.confines.mono fun _ => Zone.append_left).congr hin.subst_eq hin.next_le
    · rw [hin.bounds_iff, State.bounds_pushMono, henv]

theorem State.leave?_same {n : Nat} (h : st.leave? n = some st') :
    st'.subst = st.subst ∧ st'.supply = st.supply := by
  obtain ⟨-, rfl⟩ := State.leave?_eq_some.1 h
  exact ⟨rfl, rfl⟩

/-- What is live outside of a scope is live inside. -/
theorem State.live_of_leave {n : Nat} {v : Int} (hl : st.leave? n = some st') (h : st'.Live v) :
    st.Live v := by
  obtain ⟨-, rfl⟩ := State.leave?_eq_some.1 hl
  obtain ⟨u, hu, hv⟩ := h
  obtain ⟨x, hx, hux⟩ := Env.mem_freeVars.1 hu
  exact ⟨u, Env.mem_freeVars.2 ⟨x, List.mem_of_mem_drop hx, hux⟩, hv⟩

/-- A type is confined outside of a scope as it was inside. -/
theorem State.Confines.leave {P : Int → Prop} {n : Nat} (h : st.Confines P t)
    (hl : st.leave? n = some st') : st'.Confines P t := by
  obtain ⟨hs, hsup⟩ := State.leave?_same hl
  exact h.congr hs (hsup ▸ Int.le_refl _)

theorem Entered.exists_append (h : Entered bs cs st bs' st₁) :
    ∃ xs : Env, xs.length = bs'.length ∧ st₁.env = xs ++ st.env := by
  obtain ⟨xs, hlen, heq⟩ := Env.extend_eq_append .mono st.env
    (show (bs'.map (·.name)).length = (bs'.map (·.slot)).length by simp)
  exact ⟨xs, by simpa using hlen, h.env_eq.trans heq⟩

/-- The zone of what is in the scope of some bindings, seen from outside. -/
theorem Entered.zone (h : Entered bs ds st bs' st₁) {v : Int} (hv : Zone cs st₁ v) :
    Zone (bs ++ cs) st v := by
  rcases hv with hlive | hres | hnext
  · exact (h.live v hlive).append_left
  · exact .inr (.inl (mem_reserve_append.2 (.inr hres)))
  · exact .inr (.inr (Int.le_trans h.next_le hnext))

/-- Work in the scope of some bindings, seen from outside. -/
theorem Entered.framed (h : Entered bs ds st bs' st₁) (hf : Framed cs st₁ st₂ t)
    (hl : st₂.leave? bs'.length = some st₃) :
    Framed (bs ++ cs) st st₃ t ∧ ∀ b' ∈ bs', st₃.Confines (Zone (bs ++ cs) st) b'.slot := by
  have hzone : ∀ v, Zone cs st₁ v → Zone (bs ++ cs) st v := fun _ => h.zone
  obtain ⟨xs, hlen, henv⟩ := h.exists_append
  have hsteps := hf.steps.mono hzone
  refine ⟨⟨hsteps.leave hl henv hlen h.subst_eq h.next_le, (hf.confines.mono hzone).leave hl⟩,
    fun b' hb' => ?_⟩
  exact (((h.slots b' hb').mono fun _ => Zone.append_left).after hsteps).leave hl

/-- A function whose type is made alike with what its body shows. -/
theorem Entered.framed_arrow (h : Entered (b :: bs) ds st (b' :: bs') st₁)
    (hr : Ready (b :: bs ++ cs) st) (hf : Framed cs st₁ st₂ t)
    (hl : st₂.leave? (b' :: bs').length = some st₃)
    (hu : st₃.unify b'.slot (.arrow (bs'.map (·.slot)) t) = (st', none)) :
    Framed (b :: bs ++ cs) st st' b'.slot := by
  obtain ⟨hbody, hslots⟩ := h.framed hf hl
  obtain ⟨hslot, hargs⟩ := List.forall_mem_cons.1 hslots
  have hty := State.Confines.arrow (List.forall_mem_map.2 hargs) hbody.confines
  exact Framed.unify hr hbody.steps hslot hty hu hslot

/-- Bindings whose types are made alike with the components of a value. -/
theorem Entered.framed_tuple (h : Entered bs ds st bs' st₁) (hr : Ready (bs ++ cs) st)
    (hf : Framed cs st₁ st₂ t) (hl : st₂.leave? bs'.length = some st₃)
    (hu : st₃.unify t (.tuple (bs'.map (·.slot))) = (st', none)) :
    Framed (bs ++ cs) st st' (.tuple (bs'.map (·.slot))) := by
  obtain ⟨hval, hslots⟩ := h.framed hf hl
  have hty := State.Confines.tuple (List.forall_mem_map.2 hslots)
  exact Framed.unify hr hval.steps hval.confines hty hu hty

/-! ### Bindings that are generalized -/

/-- The scope in which bindings are known with generalized types. -/
structure Generalized (bs cs : List Binding) (st st' : State) : Prop where
  subst_eq : st'.subst = st.subst
  supply_eq : st'.supply = st.supply
  env_eq : st'.env = st.env.extend st.env.generalize (bs.map (·.name)) (bs.map (·.slot))
  live_iff : ∀ v, st'.Live v ↔ st.Live v
  bounds_iff : ∀ v, st'.env.Bounds v ↔
    (∃ b ∈ bs, v ∈ b.slot.vars ∧ ¬ v ∈ st.env.freeVars) ∨ st.env.Bounds v
  ready : Ready cs st'

/-- The type of the one binding that is generalized. -/
theorem Framed.slots (h : Framed bs st st₁ b.slot) :
    ∀ c ∈ [b], st₁.Confines (Zone bs st) c.slot :=
  fun _ hc => List.mem_singleton.1 hc ▸ h.confines

/-- The types of the bindings that are generalized together. -/
theorem Framed.slots_of_tuple (h : Framed bs st st₁ (.tuple (bs'.map (·.slot)))) :
    ∀ c ∈ bs', st₁.Confines (Zone bs st) c.slot :=
  List.forall_mem_map.1 h.confines.of_tuple

/-- Resolved types that have nothing to do with the bindings to come can be generalized, all over
the same environment. -/
theorem Ready.generalized (hr : Ready cs st) (hc : st.Current)
    (hbs : ∀ b ∈ bs, b.slot.Complete ∧ b.slot.Within fun v =>
      v < st.supply.next ∧ v ∉ reserve cs ∧ ∀ q ∈ st.subst, q.var ≠ v) :
    Generalized bs cs st (bs.foldl State.bind st) := by
  induction bs generalizing st with
  | nil => exact ⟨rfl, rfl, rfl, fun _ => Iff.rfl, fun v => by simp, hr⟩
  | cons b bs ih =>
    obtain ⟨⟨hcomplete, hwithin⟩, hbs⟩ := List.forall_mem_cons.1 hbs
    obtain ⟨hregular, hcurrent⟩ := hr.regular.bind hc hcomplete
      (hwithin.mono fun _ hv => hv.1) fun q hq hv => (hwithin _ hv).2.2 q hq rfl
    have hready : Ready cs (st.bind b) := by
      refine ⟨hregular, hr.plain, hr.nodup, fun v hv => ?_⟩
      have hunt := hr.untouched v hv
      refine ⟨hunt.lt, hunt.subst, fun hfree => ?_, fun hb => ?_⟩
      · exact hunt.free (Env.mem_freeVars_push_generalize.1 hfree)
      · rcases State.bounds_bind.1 hb with ⟨hslot, -⟩ | hb
        · exact (hwithin v hslot).2.1 hv
        · exact hunt.bound hb
    have hfree : ∀ v, v ∈ (st.bind b).env.freeVars ↔ v ∈ st.env.freeVars :=
      fun v => Env.mem_freeVars_push_generalize
    have hin := ih hready hcurrent hbs
    refine ⟨hin.subst_eq, hin.supply_eq, ?_, fun v => (hin.live_iff v).trans State.live_bind,
      fun v => ?_, hin.ready⟩
    · rw [List.foldl_cons, hin.env_eq, Env.generalize_congr hfree, List.map_cons, List.map_cons,
        Env.extend]
      rfl
    · rw [List.foldl_cons, hin.bounds_iff, State.bounds_bind]
      simp only [hfree, List.mem_cons, exists_eq_or_imp]
      rw [or_assoc]
      exact or_left_comm

/-- After the first part of a binding expression, the types found for its names can be generalized,
and the slots of the second part are untouched. -/
theorem Ready.rest (hr : Ready (bs ++ cs) st) (he : st.Extends (Zone bs st) st₁)
    (hslots : ∀ b ∈ bs', st₁.Confines (Zone bs st) b.slot) :
    Generalized (bs'.map st₁.resolve) cs st₁.refresh
      ((bs'.map st₁.resolve).foldl State.bind st₁.refresh) := by
  obtain ⟨hrefresh, hcurrent⟩ := he.regular.refresh (P := Zone bs st)
  refine (hr.right (he.trans hrefresh)).generalized hcurrent (List.forall_mem_map.2 fun b hb => ?_)
  refine ⟨(hslots b hb).1.apply he.regular.complete, fun v hv => ?_⟩
  have hv' := (hslots b hb).2 v hv
  exact ⟨hv'.2, fun hres => hr.not_zone hres hv'.1,
    fun q hq e => he.regular.triangular.not_mem_vars_apply b.slot q hq (e ▸ hv)⟩

theorem Generalized.exists_append (h : Generalized bs cs st st₁) :
    ∃ xs : Env, xs.length = bs.length ∧ st₁.env = xs ++ st.env := by
  obtain ⟨xs, hlen, heq⟩ := Env.extend_eq_append st.env.generalize st.env
    (show (bs.map (·.name)).length = (bs.map (·.slot)).length by simp)
  exact ⟨xs, by simpa using hlen, h.env_eq.trans heq⟩

/-- The zone of what is in the scope of generalized bindings, seen from outside. -/
theorem Generalized.zone (h : Generalized bs cs st st₁) {v : Int} (hv : Zone ds st₁ v) :
    Zone ds st v := by
  rcases hv with hlive | hres | hnext
  · exact .inl ((h.live_iff v).1 hlive)
  · exact .inr (.inl hres)
  · exact .inr (.inr (h.supply_eq ▸ hnext))

/-- Work in the scope of generalized bindings, seen from outside. -/
theorem Generalized.steps {P : Int → Prop} (h : Generalized bs cs st st₁) (hf : Framed cs st₁ st₂ t)
    (hl : st₂.leave? bs.length = some st₃) (hP : ∀ v, Zone cs st v → P v) :
    st.Extends P st₃ ∧ st₃.Confines P t := by
  have hzone : ∀ v, Zone cs st₁ v → P v := fun v hv => hP v (h.zone hv)
  obtain ⟨xs, hlen, henv⟩ := h.exists_append
  exact ⟨(hf.steps.mono hzone).leave hl henv hlen h.subst_eq (h.supply_eq ▸ Int.le_refl _),
    (hf.confines.mono hzone).leave hl⟩

/-- The second part of a binding expression, seen from outside. -/
theorem Framed.rest (hr : Ready (bs ++ cs) st) (he : st.Extends (Zone bs st) st₁)
    (hslots : ∀ b ∈ bs', st₁.Confines (Zone bs st) b.slot)
    (hf : Framed cs ((bs'.map st₁.resolve).foldl State.bind st₁.refresh) st₂ t)
    (hl : st₂.leave? bs'.length = some st₃) : Framed (bs ++ cs) st st₃ t := by
  have hrefresh := (he.regular.refresh (P := Zone bs st)).1
  obtain ⟨hsteps, hconfines⟩ := (hr.rest he hslots).steps hf (by rwa [List.length_map])
    fun _ hv => hv
  exact Framed.after hr.regular (he.trans hrefresh) ⟨hsteps, hconfines⟩

end Scopes

/-! ### Instances -/

/-- A fresh instance of a scheme has live and fresh variables only. -/
theorem State.Regular.instantiate {st : State} {x : String} {σ : Scheme} (hr : st.Regular)
    (hx : st.env.lookup x = some σ)
    (hroom : ∀ v ∈ (st.supply.freshList σ.bound.size).1, v < Supply.last) :
    Framed [] st (st.instantiate σ).2 (st.instantiate σ).1 := by
  have hmem := Env.mem_of_lookup hx
  obtain ⟨ht, hnext⟩ := hr.instantiate_eq hmem hroom
  have hle : st.supply.next ≤ (st.instantiate σ).2.supply.next := by omega
  refine ⟨State.Extends.raise hr rfl rfl hle, ?_, ?_⟩
  · rw [ht, Scheme.inst, Ty.complete_subst]
    refine ⟨(hr.bodies _ hmem).1, fun v _ => ?_⟩
    split <;> exact Ty.complete_var _
  · rw [ht, Scheme.inst, Ty.apply_eq_subst, Ty.subst_subst]
    refine Ty.Within.subst fun v hv w hw => ?_
    change w ∈ Ty.vars (Ty.subst st.subst.eval _) at hw
    split at hw
    · -- the id that stands for a quantified one is fresh
      rename_i hbound
      have hidx : σ.bound.ids.idxOf v < σ.bound.size := List.idxOf_lt_length_of_mem hbound
      rw [Ty.subst_var, hr.eval_of_le (by omega), Ty.mem_vars_var] at hw
      exact ⟨.inr (.inr (by omega)), by omega⟩
    · rename_i hbound
      have hlive : st.Live w :=
        ⟨v, Env.mem_freeVars.2 ⟨_, hmem, Scheme.mem_freeVars.2 ⟨hv, hbound⟩⟩, hw⟩
      exact ⟨.inl hlive, Int.lt_of_lt_of_le (hr.live_lt hlive) hle⟩

/-! ### Runs -/

mutual

/-- A run stays in its zone: it touches what is live, what its tree has in its slots, and fresh
variables. -/
theorem Infers.framed : (e : Expr) → {st : State} → {e' : Expr} → {st' : State} → {t : Ty} →
    Infers e st e' st' t → Ready e.bindings st → Framed e.bindings st st' t
  | .unit, st, _, _, _, .unit, hr => ⟨.refl hr.regular, .const "unit"⟩
  | .bool _, st, _, _, _, .bool, hr => ⟨.refl hr.regular, .const "bool"⟩
  | .int _, st, _, _, _, .int, hr => ⟨.refl hr.regular, .const "int"⟩
  | .var _, st, _, _, _, .var hx hroom, hr => hr.regular.instantiate hx hroom
  | .not e, st, _, _, _, .not he hu, hr => by
    have hf := Infers.framed e he hr
    exact Framed.unify hr hf.steps (.const "bool") hf.confines hu (.const "bool")
  | .neg e, st, _, _, _, .neg he hu, hr => by
    have hf := Infers.framed e he hr
    exact Framed.unify hr hf.steps (.const "int") hf.confines hu (.const "int")
  | .arith _ l r, st, _, _, _, .arith hl hr hu hu', hready => by
    have hready : Ready (l.bindings ++ r.bindings) st := hready
    have h₁ := Infers.framed l hl hready.left
    have h₂ := Infers.framed r hr (hready.right h₁.steps)
    have hf := Framed.after hready.regular h₁.steps h₂
    have ht₁ := h₁.confines.later hready.regular h₁.steps h₂
    have hf₃ := Framed.unify hready hf.steps ht₁ hf.confines hu ht₁
    exact Framed.unify hready hf₃.steps hf₃.confines (.const "int") hu' (.const "int")
  | .eq l r, st, _, _, _, .eq hl hr hu, hready => by
    have hready : Ready (l.bindings ++ r.bindings) st := hready
    have h₁ := Infers.framed l hl hready.left
    have h₂ := Infers.framed r hr (hready.right h₁.steps)
    have hf := Framed.after hready.regular h₁.steps h₂
    have ht₁ := h₁.confines.later hready.regular h₁.steps h₂
    exact Framed.unify hready hf.steps ht₁ hf.confines hu (.const "bool")
  | .le l r, st, _, _, _, .le hl hu hr hu', hready => by
    have hready : Ready (l.bindings ++ r.bindings) st := hready
    have h₁ := Infers.framed l hl hready.left
    have h₁' := Framed.unify hready.left h₁.steps (.const "int") h₁.confines hu (.const "int")
    have h₂ := Infers.framed r hr (hready.right h₁'.steps)
    have hf := Framed.after hready.regular h₁'.steps h₂
    exact Framed.unify hready hf.steps (.const "int") hf.confines hu' (.const "bool")
  | .ite c e₁ e₂, st, _, st', _, .ite hc hu h₁ h₂ hu', hready => by
    have hready : Ready (c.bindings ++ e₁.bindings ++ e₂.bindings) st := hready
    have hc' := Infers.framed c hc hready.left.left
    have hcond := Framed.unify hready.left.left hc'.steps (.const "bool") hc'.confines hu
      (.const "bool")
    have hf₁ := Infers.framed e₁ h₁ (hready.left.right hcond.steps)
    have hyes := Framed.after hready.regular hcond.steps hf₁
    have hf₂ := Infers.framed e₂ h₂ (hready.right hyes.steps)
    have hno := Framed.after hready.regular hyes.steps hf₂
    have ht₂ := hyes.confines.later hready.regular hyes.steps hf₂
    have hf := Framed.unify hready hno.steps ht₂ hno.confines hu' ht₂
    exact ⟨hf.steps, hf.confines.apply hf.steps.regular⟩
  | .letIn b v e, st, _, _, _, .letIn hb hv hu he hl, hready => by
    have hready : Ready ([b] ++ v.bindings ++ e.bindings) st := hready
    have hdecl := hb.framed hready.left.left
    have hval := Infers.framed v hv (hready.left.right hdecl.steps)
    have hf := hb.framed_unify hready.left hval hu
    exact Framed.rest hready hf.steps hf.slots
      (Infers.framed e he (hready.rest hf.steps hf.slots).ready) hl
  | .letRec fn args body rest, st, _, _, _, .letRec hfn hargs hbody hl hu hrest hl', hready => by
    have hready : Ready (fn :: args ++ body.bindings ++ rest.bindings) st := hready
    have hin := (Enters.cons hfn hargs).entered hready.left
    have hf := hin.framed_arrow hready.left (Infers.framed body hbody hin.ready) hl hu
    exact Framed.rest hready hf.steps hf.slots
      (Infers.framed rest hrest (hready.rest hf.steps hf.slots).ready) hl'
  | .app fn args _, st, _, st', _, .app hfn hargs hroom hu, hready => by
    have hready : Ready (fn.bindings ++ Expr.bindingsAll args) st := hready
    have h₁ := Infers.framed fn hfn hready.left
    have h₂ := InfersAll.framed args hargs (hready.right h₁.steps)
    have hf := Framed.after hready.regular h₁.steps h₂
    have ht := h₁.confines.later hready.regular h₁.steps h₂
    obtain ⟨hfresh, hret⟩ := hf.draw hroom
    have hty := State.Confines.arrow (fun s hs => (hf.confines.of_tuple s hs).after hfresh) hret
    have hf₃ := Framed.unify hready (hf.steps.trans hfresh) hty (ht.after hfresh) hu hret
    exact ⟨hf₃.steps, hf₃.confines.apply hf₃.steps.regular⟩
  | .tuple es, st, _, _, _, .tuple hes, hr => InfersAll.framed es hes hr
  | .letTuple vars v e, st, _, _, _, .letTuple hvars hv hl hu he hl', hready => by
    have hready : Ready (vars ++ v.bindings ++ e.bindings) st := hready
    have hin := hvars.entered hready.left
    have hf := hin.framed_tuple hready.left (Infers.framed v hv hin.ready) hl hu
    exact Framed.rest hready hf.steps hf.slots_of_tuple
      (Infers.framed e he (hready.rest hf.steps hf.slots_of_tuple).ready) hl'

theorem InfersAll.framed : (es : List Expr) → {st : State} → {es' : List Expr} → {st' : State} →
    {ts : List Ty} → InfersAll es st es' st' ts → Ready (Expr.bindingsAll es) st →
    Framed (Expr.bindingsAll es) st st' (.tuple ts)
  | [], st, _, _, _, .nil, hr => ⟨.refl hr.regular, .tuple fun _ h => absurd h List.not_mem_nil⟩
  | e :: es, st, _, _, _, .cons he hes, hready => by
    have hready : Ready (e.bindings ++ Expr.bindingsAll es) st := hready
    have h₁ := Infers.framed e he hready.left
    have h₂ := InfersAll.framed es hes (hready.right h₁.steps)
    have hf := Framed.after hready.regular h₁.steps h₂
    have ht := h₁.confines.later hready.regular h₁.steps h₂
    exact ⟨hf.steps, .tuple (List.forall_mem_cons.2 ⟨ht, hf.confines.of_tuple⟩)⟩

end

end LetPoly
