import LetPoly.Proofs.Echoes

/-!
# Inference on annotated trees

When the slots of a tree hold the types of a derivation, inference can only repeat the derivation.
It ends well, a solution turns all that it finds back to what was there, and what it finds, once the
pass has come to its end, is a derivation again.

## Main definitions

* `Concludes`: the end of a pass, seen from a state on the way.
* `Retraces`, `RetracesAll`: what inference on an annotated tree ends with.
* `Retraceable`: inference ends so on a tree, with one lemma per kind of node.

## Main results

* `State.Echoes.retraces_var`, `State.Echoes.constrain`, `Advances.leaving`: the ends of nodes.
* `infer_retraces`: inference on an annotated tree repeats the derivation.
-/

namespace LetPoly

open Outcome

variable {A : Int → Prop} {θ θ' : Int → Ty} {Γ : Env} {st st' : State}

/-! ### The end of a pass -/

/-- The pass goes on from the state and ends with the substitution `F` and the solution `φ`; the ids
of the slots are renamed by `π` then. -/
structure Concludes (A : Int → Prop) (st : State) (θ : Int → Ty) (F : Subst) (φ : Int → Ty)
    (π : Equiv.Perm Int) : Prop where
  isPrefix : st.subst <+: F
  complete : F.Complete
  solves : F.Solves φ
  agrees : ∀ v, v < st.supply.next → φ v = θ v
  renames : ∀ v, A v → F.eval v = .var (π v)

namespace Concludes

variable {F : Subst} {φ : Int → Ty} {π : Equiv.Perm Int} {t : Ty} {b : Binding}

theorem before (h : Concludes A st' θ' F φ π) (hadv : Advances st θ st' θ') :
    Concludes A st θ F φ π where
  isPrefix := hadv.isPrefix.trans h.isPrefix
  complete := h.complete
  solves := h.solves
  agrees := fun v hv => (h.agrees v (Int.lt_of_lt_of_le hv hadv.next_le)).trans (hadv.agrees v hv)
  renames := h.renames

theorem apply_apply (h : Concludes A st θ F φ π) (hst : st.Echoes A θ Γ) (t : Ty) :
    (t.apply st.subst).apply F = t.apply F := by
  obtain ⟨D, rfl⟩ := h.isPrefix
  exact hst.triangular.apply_apply D t

/-- A type of the slots is renamed. -/
theorem apply_eq (h : Concludes A st θ F φ π) (ht : t.Within A) : t.apply F = t.relabel π := by
  rw [Ty.apply_eq_subst]
  exact Ty.subst_congr fun v hv => h.renames v (ht v hv)

theorem map_apply_eq (h : Concludes A st θ F φ π) {bs : List Binding}
    (hbs : ∀ b ∈ bs, b.Anchored A) :
    (bs.map (·.slot)).map (·.apply F) = (bs.map (·.slot)).map (·.relabel π) := by
  rw [List.map_map, List.map_map]
  exact List.map_congr_left fun b hb => h.apply_eq (hbs b hb).2

theorem subst_apply (h : Concludes A st θ F φ π) (t : Ty) :
    (t.apply st.subst).subst φ = t.subst φ := by
  obtain ⟨D, hD⟩ := h.isPrefix
  have hs := h.solves
  rw [← hD, Subst.solves_append] at hs
  exact hs.1.subst_apply t

theorem mapSlot_apply (h : Concludes A st θ F φ π) (hst : st.Echoes A θ Γ) (hb : b.Anchored A) :
    (st.resolve b).mapSlot (·.apply F) = b.relabel π := by
  have hcomplete : (st.resolve b).slot.Complete := hb.1.apply hst.complete
  rw [Binding.mapSlot, hcomplete.isAbsent_eq_false]
  exact congrArg (Binding.mk b.name) ((h.apply_apply hst b.slot).trans (h.apply_eq hb.2))

/-- The slots can be turned back to what they were. -/
theorem mapSlot_subst (h : Concludes A st θ F φ π) (hst : st.Echoes A θ Γ) (hb : b.Anchored A) :
    (st.resolve b).mapSlot (·.subst φ) = b := by
  have hcomplete : (st.resolve b).slot.Complete := hb.1.apply hst.complete
  have hself : b.slot.subst φ = b.slot := Ty.subst_eq_self fun v hv =>
    (h.agrees v (hst.anchored v (hb.2 v hv))).trans (hst.fixed v (hb.2 v hv))
  rw [Binding.mapSlot, hcomplete.isAbsent_eq_false]
  exact congrArg (Binding.mk b.name) ((h.subst_apply b.slot).trans hself)

theorem map_mapSlot_apply (h : Concludes A st θ F φ π) (hst : st.Echoes A θ Γ)
    {bs : List Binding} (hbs : ∀ b ∈ bs, b.Anchored A) :
    (bs.map st.resolve).map (·.mapSlot (·.apply F)) = bs.map (·.relabel π) := by
  rw [List.map_map]
  exact List.map_congr_left fun b hb => h.mapSlot_apply hst (hbs b hb)

theorem map_mapSlot_subst (h : Concludes A st θ F φ π) (hst : st.Echoes A θ Γ)
    {bs : List Binding} (hbs : ∀ b ∈ bs, b.Anchored A) :
    (bs.map st.resolve).map (·.mapSlot (·.subst φ)) = bs := by
  rw [List.map_map]
  exact (List.map_congr_left fun b hb => h.mapSlot_subst hst (hbs b hb)).trans (List.map_id' bs)

end Concludes

/-! ### Runs -/

/-- Inference on the tree `e`, which is annotated with a derivation of `T`, ends with the tree `e'`
and the type `t`: the solution turns all that it finds back to what was there, and what it finds is
a derivation again. -/
structure Retraces (A : Int → Prop) (Γ : Env) (e : Expr) (T : Ty) (st : State) (θ : Int → Ty)
    (e' : Expr) (st' : State) (t : Ty) (θ' : Int → Ty) : Prop where
  echoes : st'.Echoes A θ' Γ
  advances : Advances st θ st' θ'
  knows : st'.Knows t
  type : t.subst θ' = T
  typed : ∀ F φ π, Concludes A st' θ' F φ π →
    HasType .filled (Γ.relabel π) (e'.mapSlots (·.apply F)) (t.apply F)
  slots : ∀ F φ π, Concludes A st' θ' F φ π → e'.mapSlots (·.subst φ) = e

/-- The same for a list of trees. -/
structure RetracesAll (A : Int → Prop) (Γ : Env) (es : List Expr) (Ts : List Ty) (st : State)
    (θ : Int → Ty) (es' : List Expr) (st' : State) (ts : List Ty) (θ' : Int → Ty) : Prop where
  echoes : st'.Echoes A θ' Γ
  advances : Advances st θ st' θ'
  knows : ∀ t ∈ ts, st'.Knows t
  types : ts.map (·.subst θ') = Ts
  typed : ∀ F φ π, Concludes A st' θ' F φ π →
    HasTypeAll .filled (Γ.relabel π) (Expr.mapSlotsAll (·.apply F) es') (ts.map (·.apply F))
  slots : ∀ F φ π, Concludes A st' θ' F φ π → Expr.mapSlotsAll (·.subst φ) es' = es

/-- Relabelled slots, as the typing rules ask for them. -/
theorem Binding.annotated_relabel (f : Int → Int) {bs : List Binding}
    (hbs : ∀ b ∈ bs, b.slot.Complete) (kind : SlotKind) :
    (∀ s ∈ (bs.map (·.slot)).map (·.relabel f), s.Complete) ∧
      (bs.map (·.relabel f)).map (·.name) = bs.map (·.name) ∧
      List.Forall₂ (fun b s => SlotRule.filled kind b.slot s) (bs.map (·.relabel f))
        ((bs.map (·.slot)).map (·.relabel f)) := by
  refine ⟨?_, ?_, ?_⟩
  · rw [List.forall_mem_map, List.forall_mem_map]
    exact fun b hb => Ty.complete_subst.2 ⟨hbs b hb, fun _ _ => Ty.complete_var _⟩
  · rw [List.map_map]
    rfl
  · rw [List.forall₂_map_left_iff, List.forall₂_map_right_iff, List.forall₂_map_right_iff,
      List.forall₂_same]
    exact fun _ _ => rfl

section Nodes

variable {st₁ st₂ : State} {θ₁ : Int → Ty} {e tree : Expr} {a b r t T : Ty} {x : String}
  {σ : Scheme} {κ : Equiv.Perm Int}

theorem State.knows_const (st : State) (n : String) : st.Knows (.const n) :=
  ⟨Ty.complete_const n, fun _ hv => absurd hv List.not_mem_nil⟩

theorem State.knows_arrow {ts : List Ty} (hts : ∀ s ∈ ts, st.Knows s) (ht : st.Knows t) :
    st.Knows (.arrow ts t) :=
  ⟨Ty.complete_arrow.2 ⟨fun s hs => (hts s hs).1, ht.1⟩, .arrow (fun s hs => (hts s hs).2) ht.2⟩

theorem State.knows_tuple {ts : List Ty} (hts : ∀ s ∈ ts, st.Knows s) : st.Knows (.tuple ts) :=
  ⟨Ty.complete_tuple.2 fun s hs => (hts s hs).1, .tuple fun s hs => (hts s hs).2⟩

theorem State.Echoes.knows (h : st.Echoes A θ Γ) {b : Binding} (hb : b.Anchored A) :
    st.Knows b.slot :=
  ⟨hb.1, hb.2.mono h.anchored⟩

theorem State.Echoes.knows_apply (h : st.Echoes A θ Γ) (ht : st.Knows t) :
    st.Knows (t.apply st.subst) :=
  ⟨ht.1.apply h.complete, ht.2.apply h.below⟩

/-- A fresh instance of a scheme, as the derivation has it. -/
theorem State.Echoes.retraces_var (h : st.Echoes A θ Γ) (hx : Γ.lookup x = some σ)
    (hσ : σ.Traced A θ st κ) (hT : σ.Instance T)
    (hroom : ∀ v ∈ (st.supply.freshList (σ.relabel κ).bound.size).1, v < Supply.last) :
    ∃ θ', Retraces A Γ (.var x) T st θ (.var x) (st.instantiate (σ.relabel κ)).2
      (st.instantiate (σ.relabel κ)).1 θ' := by
  obtain ⟨ρ, hρ, rfl⟩ := hT
  have hlt : ∀ v ∈ (σ.relabel κ).bound.ids, v < st.supply.next := by
    intro v hv
    obtain ⟨u, hu, rfl⟩ := VarSet.mem_relabel.1 hv
    exact hσ.below u (hσ.bound u hu)
  have hbody : (σ.relabel κ).body.Within (· < st.supply.next) := by
    intro v hv
    obtain ⟨u, hu, rfl⟩ := Ty.mem_vars_relabel.1 hv
    exact hσ.below u hu
  obtain ⟨hinst, hnext⟩ := State.instantiate_eq h.low hlt hroom
  have hle : st.supply.next ≤ (st.instantiate (σ.relabel κ)).2.supply.next := by omega
  obtain ⟨θ', hfollows, htype⟩ := State.exists_instance h.low h.below hlt hbody hroom h.solves
    fun w => ρ (κ.symm w)
  have hadv : Advances st θ (st.instantiate (σ.relabel κ)).2 θ' :=
    ⟨List.prefix_refl _, hle, fun v hv => hfollows.eq v hv List.not_mem_nil⟩
  refine ⟨θ', h.raise rfl rfl hadv, hadv, ⟨?_, ?_⟩, ?_, fun F φ π hc => ?_, fun _ _ _ _ => rfl⟩
  · rw [hinst, Scheme.inst, Ty.complete_subst]
    refine ⟨Ty.complete_subst.2 ⟨hσ.complete, fun _ _ => Ty.complete_var _⟩, fun v _ => ?_⟩
    split <;> exact Ty.complete_var _
  · rw [hinst, Scheme.inst]
    refine Ty.Within.subst fun v hv w hw => ?_
    split at hw
    · rename_i hbound
      have hidx : (σ.relabel κ).bound.ids.idxOf v < (σ.relabel κ).bound.size :=
        List.idxOf_lt_length_of_mem hbound
      rw [Ty.mem_vars_var.1 hw]
      omega
    · rw [Ty.mem_vars_var.1 hw]
      exact Int.lt_of_lt_of_le (hbody v hv) hle
  · rw [htype, Scheme.inst_relabel κ.injective]
    simp only [Equiv.symm_apply_apply]
    exact Scheme.inst_congr fun v hv => hσ.back v (Scheme.mem_freeVars.1 hv).1
  · refine .var ((Env.lookup_relabel Γ x).trans (congrArg (Option.map _) hx))
      ⟨fun w => F.eval (st.supply.next + (σ.relabel κ).bound.ids.idxOf (κ (π.symm w))),
        fun w => (Ty.complete_var _).apply hc.complete, ?_⟩
    rw [hinst, Ty.apply_eq_subst, Scheme.subst_inst, Scheme.inst_relabel κ.injective,
      Scheme.inst_relabel π.injective]
    simp only [Equiv.symm_apply_apply, Ty.subst_var]
    refine Scheme.inst_congr fun v hv => ?_
    -- a free id has become the same as the one that stands for it
    obtain ⟨D, rfl⟩ := hc.isPrefix
    rw [← hc.renames v (hσ.within v (Scheme.mem_freeVars.1 hv).1), Subst.eval_append,
      Subst.eval_append]
    exact congrArg (·.apply D) (hσ.free v hv)

/-- A last step that makes two types alike. -/
theorem State.Echoes.constrain (h : st₁.Echoes A θ₁ Γ) (hadv : Advances st θ st₁ θ₁)
    (ha : st₁.Knows a) (hb : st₁.Knows b) (heq : a.subst θ₁ = b.subst θ₁) (hr : st₁.Knows r)
    (hT : r.subst θ₁ = T)
    (htyped : ∀ F φ π, Concludes A st₁ θ₁ F φ π → a.apply F = b.apply F →
      HasType .filled (Γ.relabel π) (tree.mapSlots (·.apply F)) (r.apply F))
    (hslots : ∀ F φ π, Concludes A st₁ θ₁ F φ π → tree.mapSlots (·.subst φ) = e) :
    (st₁.constrain tree a b r).Ends fun e' st' t => ∃ θ', Retraces A Γ e T st θ e' st' t θ' := by
  obtain ⟨st', hu, h', hadv'⟩ := h.unify ha hb heq
  rw [State.constrain_eq_done.2 ⟨rfl, hu, rfl⟩]
  refine ends_done ⟨θ₁, h', hadv.trans hadv', hadv'.knows hr, hT, fun F φ π hc => ?_,
    fun F φ π hc => hslots F φ π (hc.before hadv')⟩
  exact htyped F φ π (hc.before hadv') (State.apply_eq_of_unify hu hc.isPrefix)

/-- The body of a binding expression, seen from outside. -/
theorem Advances.leaving {bs : List Binding} {rebuild : Expr → Expr} {i : Nat}
    (hadv : Advances st θ st₁ θ₁)
    (hbody : (infer e ((bs.map st₁.resolve).foldl State.bind st₁.refresh)).Ends fun e' st' t =>
      ∃ θ', Retraces A (Γ.extend Γ.generalize (bs.map (·.name)) (bs.map (·.slot))) e T
        ((bs.map st₁.resolve).foldl State.bind st₁.refresh) θ₁ e' st' t θ')
    (htyped : ∀ F φ π e' t, Concludes A st₁ θ₁ F φ π →
      HasType .filled ((Γ.relabel π).extend (Γ.relabel π).generalize (bs.map (·.name))
        ((bs.map (·.slot)).map (·.relabel π))) (e'.mapSlots (·.apply F)) t →
      HasType .filled (Γ.relabel π) ((rebuild e').mapSlots (·.apply F)) t)
    (hslots : ∀ F φ π e', Concludes A st₁ θ₁ F φ π → e'.mapSlots (·.subst φ) = e →
      (rebuild e').mapSlots (·.subst φ) = tree) :
    ((infer e ((bs.map st₁.resolve).foldl State.bind st₁.refresh)).leaving rebuild i
      bs.length).Ends fun e' st' t => ∃ θ', Retraces A Γ tree T st θ e' st' t θ' := by
  refine hbody.leaving ?_
  rintro e' st₂ t ⟨θ', hret⟩
  obtain ⟨xs, hlen, henv⟩ := Env.extend_eq_append Γ.generalize Γ
    (show (bs.map (·.name)).length = (bs.map (·.slot)).length by simp)
  have hechoes := hret.echoes
  rw [henv] at hechoes
  obtain ⟨st', hl, h'⟩ := hechoes.leave
  rw [hlen, List.length_map] at hl
  obtain ⟨hs, hsup⟩ := State.leave?_same hl
  have hout : Advances st₂ θ' st' θ' := .of_eq hs hsup
  have hin : Advances st₁ θ₁ ((bs.map st₁.resolve).foldl State.bind st₁.refresh) θ₁ :=
    .of_eq (State.subst_foldl_bind _ _) (State.supply_foldl_bind _ _)
  have hadv' := (hin.trans hret.advances).trans hout
  refine ⟨st', hl, θ', h', hadv.trans hadv', hout.knows hret.knows, hret.type,
    fun F φ π hc => htyped F φ π e' _ (hc.before hadv') ?_,
    fun F φ π hc => hslots F φ π e' (hc.before hadv') (hret.slots F φ π (hc.before hout))⟩
  have htree := hret.typed F φ π (hc.before hout)
  rwa [Env.relabel_extend _ _ _ fun t _ => Env.relabel_generalize π.injective Γ t] at htree

end Nodes

/-- Inference on the tree repeats whatever can be derived for it as it is annotated, if the slots of
its bindings are filled with types over the ids in `A`. -/
def Retraceable (A : Int → Prop) (e : Expr) : Prop :=
  ∀ ⦃st : State⦄ ⦃θ : Int → Ty⦄ ⦃Γ : Env⦄ ⦃T : Ty⦄, st.Echoes A θ Γ →
    (∀ b ∈ e.bindings, b.Anchored A) → HasType .filled Γ e T →
    (infer e st).Ends fun e' st' t => ∃ θ', Retraces A Γ e T st θ e' st' t θ'

/-- Inference repeats what can be derived for the trees of a list, one after the other. -/
def RetraceableAll (A : Int → Prop) (es : List Expr) : Prop :=
  ∀ (i : Nat) ⦃st : State⦄ ⦃θ : Int → Ty⦄ ⦃Γ : Env⦄ ⦃Ts : List Ty⦄, st.Echoes A θ Γ →
    (∀ b ∈ Expr.bindingsAll es, b.Anchored A) → HasTypeAll .filled Γ es Ts →
    (inferAll i es st).Ends fun es' st' ts => ∃ θ', RetracesAll A Γ es Ts st θ es' st' ts θ'

section Cases

variable {c e e₁ e₂ l r v body rest : Expr}

theorem retraceable_absent : Retraceable A .absent
  | _, _, _, _, _, _, h => nomatch h

theorem retraceable_foreign {kind : String} : Retraceable A (.foreign kind)
  | _, _, _, _, _, _, h => nomatch h

theorem retraceable_unit : Retraceable A .unit
  | st, θ, _, _, h, _, .unit => ends_done ⟨θ, h, .of_eq rfl rfl, st.knows_const _, rfl,
      fun F _ _ _ => (Ty.apply_const _ F).symm ▸ .unit, fun _ _ _ _ => rfl⟩

theorem retraceable_bool {value : Bool} : Retraceable A (.bool value)
  | st, θ, _, _, h, _, .bool => ends_done ⟨θ, h, .of_eq rfl rfl, st.knows_const _, rfl,
      fun F _ _ _ => (Ty.apply_const _ F).symm ▸ .bool, fun _ _ _ _ => rfl⟩

theorem retraceable_int {value : Int} : Retraceable A (.int value)
  | st, θ, _, _, h, _, .int => ends_done ⟨θ, h, .of_eq rfl rfl, st.knows_const _, rfl,
      fun F _ _ _ => (Ty.apply_const _ F).symm ▸ .int, fun _ _ _ _ => rfl⟩

theorem retraceable_var {x : String} : Retraceable A (.var x)
  | st, θ, Γ, _, h, _, .var hx ht => by
    obtain ⟨κ, hlookup, hσ⟩ := Entry.exists_lookup h.env hx
    rw [infer, hlookup]
    intro hw
    exact ⟨_, _, _, rfl, h.retraces_var hx hσ ht
      fun v hv => hw v (List.mem_append_right _ (List.mem_map_of_mem hv))⟩

/-- An operator with one operand, which has the type of the result. -/
theorem Retraceable.operand {name : String} {node : Expr → Expr} (ih : Retraceable A e)
    (h : st.Echoes A θ Γ) (hbs : ∀ b ∈ e.bindings, b.Anchored A)
    (he : HasType .filled Γ e (.const name))
    (hnode : ∀ (f : Ty → Ty) (e' : Expr), (node e').mapSlots f = node (e'.mapSlots f))
    (hrule : ∀ {Γ : Env} {a : Expr}, HasType .filled Γ a (.const name) →
      HasType .filled Γ (node a) (.const name)) :
    ((infer e st).andThen node (.under 0) fun e' st₁ t =>
      st₁.constrain (node e') (.const name) t (.const name)).Ends fun e' st' t =>
        ∃ θ', Retraces A Γ (node e) (.const name) st θ e' st' t θ' := by
  refine (ih h hbs he).andThen (fun _ st t => keeps_constrain st _ _ t _) ?_
  rintro e' st₁ t ⟨θ₁, h₁⟩
  refine h₁.echoes.constrain h₁.advances (st₁.knows_const _) h₁.knows h₁.type.symm
    (st₁.knows_const _) rfl (fun F φ π hc heq => ?_) fun F φ π hc => ?_
  · have htyped := h₁.typed F φ π hc
    rw [← heq, Ty.apply_const] at htyped
    rw [Ty.apply_const, hnode]
    exact hrule htyped
  · rw [hnode, h₁.slots F φ π hc]

theorem retraceable_not (ih : Retraceable A e) : Retraceable A (.not e)
  | st, θ, Γ, _, h, hbs, .not he => by
    rw [infer]
    exact ih.operand h hbs he (fun _ _ => rfl) .not

theorem retraceable_neg (ih : Retraceable A e) : Retraceable A (.neg e)
  | st, θ, Γ, _, h, hbs, .neg he => by
    rw [infer]
    exact ih.operand h hbs he (fun _ _ => rfl) .neg

theorem retraceable_arith {op : ArithOp} (ihl : Retraceable A l) (ihr : Retraceable A r) :
    Retraceable A (.arith op l r)
  | st, θ, Γ, _, h, hbs, .arith hl hr => by
    have hbs : ∀ b ∈ l.bindings ++ r.bindings, b.Anchored A := hbs
    rw [List.forall_mem_append] at hbs
    rw [infer]
    refine (ihl h hbs.1 hl).andThen (fun _ st t₁ =>
      (infer_keeps r st).andThen fun _ st t₂ => keeps_unifyThen st _ t₁ t₂ fun st =>
        keeps_constrain st _ t₁ _ _) ?_
    rintro l' st₁ t₁ ⟨θ₁, h₁⟩
    refine (ihr h₁.echoes hbs.2 hr).andThen (fun _ st t₂ =>
      keeps_unifyThen st _ t₁ t₂ fun st => keeps_constrain st _ t₁ _ _) ?_
    rintro r' st₂ t₂ ⟨θ₂, h₂⟩
    have ht₁ := h₂.advances.knows h₁.knows
    have htype₁ := (h₂.advances.subst_eq h₁.knows).trans h₁.type
    obtain ⟨st₃, hu, h₃, hadv⟩ := h₂.echoes.unify ht₁ h₂.knows (htype₁.trans h₂.type.symm)
    rw [State.unifyThen_of_eq hu]
    refine h₃.constrain ((h₁.advances.trans h₂.advances).trans hadv) (hadv.knows ht₁)
      (st₃.knows_const _) htype₁ (st₃.knows_const _) rfl (fun F φ π hc heq => ?_)
      fun F φ π hc => ?_
    · have htyped₁ := h₁.typed F φ π (hc.before (h₂.advances.trans hadv))
      have htyped₂ := h₂.typed F φ π (hc.before hadv)
      rw [← State.apply_eq_of_unify hu hc.isPrefix] at htyped₂
      rw [heq, Ty.int, Ty.apply_const] at htyped₁ htyped₂
      rw [Ty.int, Ty.apply_const]
      exact .arith htyped₁ htyped₂
    · exact congrArg₂ (Expr.arith op) (h₁.slots F φ π (hc.before (h₂.advances.trans hadv)))
        (h₂.slots F φ π (hc.before hadv))

theorem retraceable_eq (ihl : Retraceable A l) (ihr : Retraceable A r) : Retraceable A (.eq l r)
  | st, θ, Γ, _, h, hbs, .eq hl hr => by
    have hbs : ∀ b ∈ l.bindings ++ r.bindings, b.Anchored A := hbs
    rw [List.forall_mem_append] at hbs
    rw [infer]
    refine (ihl h hbs.1 hl).andThen (fun _ st t₁ =>
      (infer_keeps r st).andThen fun _ st t₂ => keeps_constrain st _ t₁ t₂ _) ?_
    rintro l' st₁ t₁ ⟨θ₁, h₁⟩
    refine (ihr h₁.echoes hbs.2 hr).andThen (fun _ st t₂ =>
      keeps_constrain st _ t₁ t₂ _) ?_
    rintro r' st₂ t₂ ⟨θ₂, h₂⟩
    have htype₁ := (h₂.advances.subst_eq h₁.knows).trans h₁.type
    refine h₂.echoes.constrain (h₁.advances.trans h₂.advances) (h₂.advances.knows h₁.knows)
      h₂.knows (htype₁.trans h₂.type.symm) (st₂.knows_const _) rfl (fun F φ π hc heq => ?_)
      fun F φ π hc => congrArg₂ Expr.eq (h₁.slots F φ π (hc.before h₂.advances))
        (h₂.slots F φ π hc)
    have htyped₂ := h₂.typed F φ π hc
    rw [← heq] at htyped₂
    rw [Ty.bool, Ty.apply_const]
    exact .eq (h₁.typed F φ π (hc.before h₂.advances)) htyped₂

theorem retraceable_le (ihl : Retraceable A l) (ihr : Retraceable A r) : Retraceable A (.le l r)
  | st, θ, Γ, _, h, hbs, .le hl hr => by
    have hbs : ∀ b ∈ l.bindings ++ r.bindings, b.Anchored A := hbs
    rw [List.forall_mem_append] at hbs
    rw [infer]
    refine (ihl h hbs.1 hl).andThen (fun _ st t₁ =>
      keeps_unifyThen st _ _ t₁ fun st => (infer_keeps r st).andThen fun _ st t₂ =>
        keeps_constrain st _ _ t₂ _) ?_
    rintro l' st₁ t₁ ⟨θ₁, h₁⟩
    obtain ⟨st₂, hu, h₂, hadv⟩ :=
      h₁.echoes.unify (a := .int) (st₁.knows_const _) h₁.knows h₁.type.symm
    rw [State.unifyThen_of_eq hu]
    refine (ihr h₂ hbs.2 hr).andThen (fun _ st t₂ => keeps_constrain st _ _ t₂ _) ?_
    rintro r' st₃ t₂ ⟨θ₂, h₃⟩
    refine h₃.echoes.constrain ((h₁.advances.trans hadv).trans h₃.advances) (st₃.knows_const _)
      h₃.knows h₃.type.symm (st₃.knows_const _) rfl (fun F φ π hc heq => ?_) fun F φ π hc => ?_
    · have htyped₁ := h₁.typed F φ π (hc.before (hadv.trans h₃.advances))
      have htyped₂ := h₃.typed F φ π hc
      rw [← State.apply_eq_of_unify hu (h₃.advances.isPrefix.trans hc.isPrefix), Ty.int,
        Ty.apply_const] at htyped₁
      rw [← heq, Ty.int, Ty.apply_const] at htyped₂
      rw [Ty.bool, Ty.apply_const]
      exact .le htyped₁ htyped₂
    · exact congrArg₂ Expr.le (h₁.slots F φ π (hc.before (hadv.trans h₃.advances)))
        (h₃.slots F φ π hc)

theorem retraceable_ite (ihc : Retraceable A c) (ih₁ : Retraceable A e₁) (ih₂ : Retraceable A e₂) :
    Retraceable A (.ite c e₁ e₂)
  | st, θ, Γ, _, h, hbs, .ite hcond hyes hno => by
    have hbs : ∀ b ∈ c.bindings ++ e₁.bindings ++ e₂.bindings, b.Anchored A := hbs
    rw [List.forall_mem_append, List.forall_mem_append] at hbs
    rw [infer]
    refine (ihc h hbs.1.1 hcond).andThen (fun _ st t₁ =>
      keeps_unifyThen st _ _ t₁ fun st => (infer_keeps e₁ st).andThen fun _ st t₂ =>
        (infer_keeps e₂ st).andThen fun _ st t₃ => keeps_unifyThen st _ t₂ t₃ fun _ =>
          List.prefix_refl _) ?_
    rintro c' st₁ t₁ ⟨θ₁, h₁⟩
    obtain ⟨st₂, hu, h₂, hadv⟩ :=
      h₁.echoes.unify (a := .bool) (st₁.knows_const _) h₁.knows h₁.type.symm
    rw [State.unifyThen_of_eq hu]
    refine (ih₁ h₂ hbs.1.2 hyes).andThen (fun _ st t₂ =>
      (infer_keeps e₂ st).andThen fun _ st t₃ => keeps_unifyThen st _ t₂ t₃ fun _ =>
        List.prefix_refl _) ?_
    rintro e₁' st₃ t₂ ⟨θ₂, h₃⟩
    refine (ih₂ h₃.echoes hbs.2 hno).andThen (fun _ st t₃ =>
      keeps_unifyThen st _ t₂ t₃ fun _ => List.prefix_refl _) ?_
    rintro e₂' st₄ t₃ ⟨θ₃, h₄⟩
    have ht₂ := h₄.advances.knows h₃.knows
    have htype₂ := (h₄.advances.subst_eq h₃.knows).trans h₃.type
    obtain ⟨st₅, hu', h₅, hadv'⟩ := h₄.echoes.unify ht₂ h₄.knows (htype₂.trans h₄.type.symm)
    rw [State.unifyThen_of_eq hu']
    have hadv₄ := h₄.advances.trans hadv'
    have hadv₃ := h₃.advances.trans hadv₄
    refine ends_done ⟨θ₃, h₅, (h₁.advances.trans hadv).trans hadv₃,
      h₅.knows_apply (hadv'.knows ht₂), (h₅.solves.subst_apply t₂).trans htype₂,
      fun F φ π hc => ?_, fun F φ π hc => ?_⟩
    · have htyped₁ := h₁.typed F φ π (hc.before (hadv.trans hadv₃))
      have htyped₃ := h₄.typed F φ π (hc.before hadv')
      rw [← State.apply_eq_of_unify hu (hadv₃.isPrefix.trans hc.isPrefix), Ty.bool,
        Ty.apply_const] at htyped₁
      rw [← State.apply_eq_of_unify hu' hc.isPrefix] at htyped₃
      rw [hc.apply_apply h₅]
      exact .ite htyped₁ (h₃.typed F φ π (hc.before hadv₄)) htyped₃
    · rw [Expr.mapSlots, h₁.slots F φ π (hc.before (hadv.trans hadv₃)),
        h₃.slots F φ π (hc.before hadv₄), h₄.slots F φ π (hc.before hadv')]

theorem retraceable_letIn {b : Binding} (ihv : Retraceable A v) (ihe : Retraceable A e) :
    Retraceable A (.letIn b v e)
  | st, θ, Γ, _, h, hbs, .letIn hv hb he => by
    have hbs : ∀ c ∈ [b] ++ v.bindings ++ e.bindings, c.Anchored A := hbs
    rw [List.forall_mem_append, List.forall_mem_append, List.forall_mem_singleton] at hbs
    obtain ⟨⟨hb', hvbs⟩, hebs⟩ := hbs
    obtain rfl := hb
    simp only [infer, hb'.declare_eq]
    refine (ihv h hvbs hv).andThen (fun _ st t => keeps_unifyThen st _ _ t fun st =>
      (Keeps.of_refresh [st.resolve b] (infer_keeps e _)).leaving _ 1 1) ?_
    rintro v' st₁ t ⟨θ₁, h₁⟩
    obtain ⟨st₂, hu, h₂, hadv⟩ := h₁.echoes.unify (h₁.echoes.knows hb') h₁.knows
      ((h₁.echoes.subst_eq_self hb'.2).trans h₁.type.symm)
    rw [State.unifyThen_of_eq hu]
    have hrest := h₂.rest (List.forall_mem_singleton.2 hb')
    refine (h₁.advances.trans hadv).leaving (ihe hrest hebs he)
      (fun F φ π e' t' hc htree => ?_) fun F φ π e' hc heq => ?_
    · have hval := h₁.typed F φ π (hc.before hadv)
      rw [← State.apply_eq_of_unify hu hc.isPrefix, hc.apply_eq hb'.2] at hval
      change HasType _ _ (.letIn ((st₂.resolve b).mapSlot (·.apply F)) _ _) _
      rw [hc.mapSlot_apply h₂ hb']
      exact .letIn hval rfl htree
    · change Expr.letIn _ _ _ = _
      exact congr (congrArg₂ Expr.letIn (hc.mapSlot_subst h₂ hb')
        (h₁.slots F φ π (hc.before hadv))) heq

/-- The slots of the function and of its arguments are filled, so nothing is drawn for them, and they
only have to be made alike again. -/
theorem retraceable_letRec {fn : Binding} {args : List Binding} (ihbody : Retraceable A body)
    (ihrest : Retraceable A rest) : Retraceable A (.letRec fn args body rest)
  | st, θ, Γ, _, h, hbs, .letRec hts hfn hargs hbody hrest => by
    have hbs : ∀ c ∈ fn :: args ++ body.bindings ++ rest.bindings, c.Anchored A := hbs
    rw [List.forall_mem_append, List.forall_mem_append, List.forall_mem_cons] at hbs
    obtain ⟨⟨⟨hfn', hargs'⟩, hbbs⟩, hrbs⟩ := hbs
    obtain rfl := Binding.map_slot_of_filled hargs
    rw [← hfn] at hbody hrest
    obtain ⟨st₁, hent, hs, hsup, h₁⟩ := (h.pushMono hfn').enter hargs'
    simp only [infer, hfn'.declare_eq, hent]
    refine (ihbody h₁ hbbs hbody).andThen (fun _ st ret =>
      keeps_leaveThen st _ _ fun st => keeps_unifyThen st _ _ _ fun st =>
        (Keeps.of_refresh [st.resolve fn] (infer_keeps rest _)).leaving _ 1 1) ?_
    rintro body' st₂ ret ⟨θ₂, h₂⟩
    obtain ⟨xs, hlen, henv⟩ := Env.extend_eq_append .mono (Γ.pushMono fn.name fn.slot)
      (show (args.map (·.name)).length = (args.map (·.slot)).length by simp)
    have hin : st₂.Echoes A θ₂ ((xs ++ [⟨fn.name, .mono fn.slot⟩]) ++ Γ) := by
      rw [List.append_assoc]
      exact henv ▸ h₂.echoes
    obtain ⟨st₃, hl, h₃⟩ := hin.leave
    rw [List.length_append, hlen, List.length_map, List.length_singleton] at hl
    obtain ⟨hs₃, hsup₃⟩ := State.leave?_same hl
    have hadv₁ : Advances st θ st₁ θ := .of_eq hs hsup
    have hadv₃ : Advances st₂ θ₂ st₃ θ₂ := .of_eq hs₃ hsup₃
    have hknows := State.knows_arrow (List.forall_mem_map.2 fun b hb => h₃.knows (hargs' b hb))
      (hadv₃.knows h₂.knows)
    obtain ⟨st₄, hu, h₄, hadv₄⟩ := h₃.unify (h₃.knows hfn') hknows
      (by rw [h₃.subst_eq_self hfn'.2, Ty.subst_arrow, h₃.map_subst_eq_self hargs', h₂.type, hfn])
    rw [State.leaveThen_of_eq hl, State.unifyThen_of_eq hu]
    have hrest' := h₄.rest (List.forall_mem_singleton.2 hfn')
    have hadv := hadv₃.trans hadv₄
    refine ((hadv₁.trans h₂.advances).trans hadv).leaving (ihrest hrest' hrbs hrest)
      (fun F φ π e' t' hc htree => ?_) fun F φ π e' hc heq => ?_
    · have htype : fn.slot.relabel π =
          .arrow ((args.map (·.slot)).map (·.relabel π)) (ret.apply F) := by
        rw [← hc.apply_eq hfn'.2, State.apply_eq_of_unify hu hc.isPrefix, Ty.apply_arrow,
          hc.map_apply_eq hargs']
      have hbody' := h₂.typed F φ π (hc.before hadv)
      rw [Env.relabel_extend _ _ _ fun t _ => Scheme.relabel_mono t, Env.pushMono,
        Env.relabel_push, Scheme.relabel_mono, htype] at hbody'
      change HasType _ _ (.letRec ((st₄.resolve fn).mapSlot (·.apply F))
        ((args.map st₄.resolve).map (·.mapSlot (·.apply F))) _ _) _
      rw [hc.mapSlot_apply h₄ hfn', hc.map_mapSlot_apply h₄ hargs']
      obtain ⟨hcomplete, hnames, hfilled⟩ :=
        Binding.annotated_relabel π (fun b hb => (hargs' b hb).1) .recArg
      rw [← hnames] at hbody'
      change HasType _ ((Γ.relabel π).push fn.name
        ((Γ.relabel π).generalize (fn.slot.relabel π))) _ _ at htree
      rw [htype] at htree
      exact .letRec hcomplete htype hfilled hbody' htree
    · change Expr.letRec _ _ _ _ = _
      exact congr (congr (congrArg₂ Expr.letRec (hc.mapSlot_subst h₄ hfn')
        (hc.map_mapSlot_subst h₄ hargs')) (h₂.slots F φ π (hc.before hadv))) heq

/-- The slot of an application is not looked at: an id is drawn for the result, and stands for the
type that the slot has. -/
theorem retraceable_app {fn : Expr} {args : List Expr} {slot : Ty} (ihfn : Retraceable A fn)
    (ihargs : RetraceableAll A args) : Retraceable A (.app fn args slot)
  | st, θ, Γ, T, h, hbs, .app hfn hargs hslot => by
    have hbs : ∀ c ∈ fn.bindings ++ Expr.bindingsAll args, c.Anchored A := hbs
    rw [List.forall_mem_append] at hbs
    rw [infer]
    refine (ihfn h hbs.1 hfn).andThen (fun fn' st t =>
      (inferAll_keeps 1 args st).andThen fun args' st ts =>
        (keeps_unifyThen st.freshVar.2 (.app fn' args' slot) (.arrow ts st.freshVar.1) t fun st₁ =>
          keeps_done (.app fn' args' (st.freshVar.1.apply st₁.subst)) st₁ _).of_isPrefix
          st.trace_prefix_freshVar) ?_
    rintro fn' st₁ t ⟨θ₁, h₁⟩
    refine (ihargs 1 h₁.echoes hbs.2 hargs).andThen (fun args' st ts =>
      (keeps_unifyThen st.freshVar.2 (.app fn' args' slot) (.arrow ts st.freshVar.1) t fun st₁ =>
        keeps_done (.app fn' args' (st.freshVar.1.apply st₁.subst)) st₁ _).of_isPrefix
        st.trace_prefix_freshVar) ?_
    rintro args' st₂ ts ⟨θ₂, h₂⟩
    intro hw
    have hroom := (hw.of_isPrefix (keeps_unifyThen st₂.freshVar.2 _ _ _ fun st₁ =>
      keeps_done _ st₁ _)).next_lt
    have hnext : st₂.freshVar.2.supply.next = st₂.supply.next + 1 :=
      Supply.succ_eq h₂.echoes.low hroom
    have hdraw : Advances st₂ θ₂ st₂.freshVar.2 (Function.update θ₂ st₂.supply.next T) :=
      ⟨List.prefix_refl _, by omega, fun v hv => Function.update_of_ne (Int.ne_of_lt hv) _ _⟩
    have h₃ : st₂.freshVar.2.Echoes A _ Γ := h₂.echoes.raise rfl rfl hdraw
    have hret : st₂.freshVar.2.Knows st₂.freshVar.1 := by
      refine ⟨Ty.complete_var _, fun v hv => ?_⟩
      rw [Ty.mem_vars_var.1 hv]
      omega
    have hretT : st₂.freshVar.1.subst (Function.update θ₂ st₂.supply.next T) = T :=
      Function.update_self _ _ _
    have ht := h₂.advances.knows h₁.knows
    have hts : ts.map (·.subst (Function.update θ₂ st₂.supply.next T)) = ts.map (·.subst θ₂) :=
      List.map_congr_left fun s hs => hdraw.subst_eq (h₂.knows s hs)
    obtain ⟨st', hu, h', hadv⟩ := h₃.unify
      (State.knows_arrow (fun s hs => hdraw.knows (h₂.knows s hs)) hret) (hdraw.knows ht)
      (by rw [Ty.subst_arrow, hretT, hts, h₂.types, hdraw.subst_eq ht,
        h₂.advances.subst_eq h₁.knows, h₁.type])
    have habsent : ((Ty.var st₂.supply.next).apply st'.subst).isAbsent = false :=
      (hret.1.apply h'.complete).isAbsent_eq_false
    have hend := hdraw.trans hadv
    have hend' := h₂.advances.trans hend
    refine ⟨_, st', _, State.unifyThen_of_eq hu, _, h', h₁.advances.trans hend',
      h'.knows_apply (hadv.knows hret), (h'.solves.subst_apply _).trans hretT,
      fun F φ π hc => ?_, fun F φ π hc => ?_⟩
    · have hfn' := h₁.typed F φ π (hc.before hend')
      rw [← State.apply_eq_of_unify hu hc.isPrefix, Ty.apply_arrow] at hfn'
      rw [Expr.mapSlots, habsent, if_neg Bool.false_ne_true, hc.apply_apply h']
      exact .app hfn' (h₂.typed F φ π (hc.before hend)) rfl
    · have hslot' : (Ty.var st₂.supply.next).subst φ = T :=
        (hc.agrees _ (Int.lt_of_lt_of_le (by omega) hadv.next_le)).trans hretT
      rw [Expr.mapSlots, h₁.slots F φ π (hc.before hend'), h₂.slots F φ π (hc.before hend),
        habsent, if_neg Bool.false_ne_true, hc.subst_apply, hslot', hslot]

theorem retraceable_tuple {es : List Expr} (ih : RetraceableAll A es) : Retraceable A (.tuple es)
  | st, θ, Γ, _, h, hbs, .tuple hes => by
    rw [infer]
    refine (ih 0 h hbs hes).andThen (fun _ _ _ => List.prefix_refl _) ?_
    rintro es' st₁ ts ⟨θ₁, h₁⟩
    refine ends_done ⟨θ₁, h₁.echoes, h₁.advances, State.knows_tuple h₁.knows, ?_,
      fun F φ π hc => ?_, fun F φ π hc => congrArg Expr.tuple (h₁.slots F φ π hc)⟩
    · rw [Ty.subst_tuple, h₁.types]
    · rw [Ty.apply_tuple]
      exact .tuple (h₁.typed F φ π hc)

/-- The slots of the bindings are filled, and the value has the tuple of their types again. -/
theorem retraceable_letTuple {vars : List Binding} (ihv : Retraceable A v) (ihe : Retraceable A e) :
    Retraceable A (.letTuple vars v e)
  | st, θ, Γ, _, h, hbs, .letTuple hts hvars hv he => by
    have hbs : ∀ c ∈ vars ++ v.bindings ++ e.bindings, c.Anchored A := hbs
    rw [List.forall_mem_append, List.forall_mem_append] at hbs
    obtain ⟨⟨hvars', hvbs⟩, hebs⟩ := hbs
    obtain rfl := Binding.map_slot_of_filled hvars
    obtain ⟨st₁, hent, hs, hsup, h₁⟩ := h.enter hvars'
    simp only [infer, hent]
    refine (ihv h₁ hvbs hv).andThen (fun _ st t =>
      keeps_leaveThen st _ _ fun st => keeps_unifyThen st _ t _ fun _ =>
        (Keeps.of_refresh _ (infer_keeps e _)).leaving _ 1 _) ?_
    rintro v' st₂ t ⟨θ₂, h₂⟩
    obtain ⟨xs, hlen, henv⟩ := Env.extend_eq_append .mono Γ
      (show (vars.map (·.name)).length = (vars.map (·.slot)).length by simp)
    have hin := h₂.echoes
    rw [henv] at hin
    obtain ⟨st₃, hl, h₃⟩ := hin.leave
    rw [hlen, List.length_map] at hl
    obtain ⟨hs₃, hsup₃⟩ := State.leave?_same hl
    have hadv₁ : Advances st θ st₁ θ := .of_eq hs hsup
    have hadv₃ : Advances st₂ θ₂ st₃ θ₂ := .of_eq hs₃ hsup₃
    obtain ⟨st₄, hu, h₄, hadv₄⟩ := h₃.unify (hadv₃.knows h₂.knows)
      (State.knows_tuple (List.forall_mem_map.2 fun b hb => h₃.knows (hvars' b hb)))
      (by rw [h₂.type, Ty.subst_tuple, h₃.map_subst_eq_self hvars'])
    rw [State.leaveThen_of_eq hl, State.unifyThen_of_eq hu, List.length_map]
    have hadv := hadv₃.trans hadv₄
    refine ((hadv₁.trans h₂.advances).trans hadv).leaving
      (ihe (h₄.rest hvars') hebs he)
      (fun F φ π e' t' hc htree => ?_) fun F φ π e' hc heq => ?_
    · obtain ⟨hcomplete, hnames, hfilled⟩ :=
        Binding.annotated_relabel π (fun b hb => (hvars' b hb).1) .tupleVar
      have hval := h₂.typed F φ π (hc.before hadv)
      rw [Env.relabel_extend _ _ _ fun t _ => Scheme.relabel_mono t,
        State.apply_eq_of_unify hu hc.isPrefix, Ty.apply_tuple, hc.map_apply_eq hvars',
        ← hnames] at hval
      rw [← hnames] at htree
      change HasType _ _ (.letTuple ((vars.map st₄.resolve).map (·.mapSlot (·.apply F))) _ _) _
      rw [hc.map_mapSlot_apply h₄ hvars']
      exact .letTuple hcomplete hfilled hval htree
    · change Expr.letTuple _ _ _ = _
      exact congr (congrArg₂ Expr.letTuple (hc.map_mapSlot_subst h₄ hvars')
        (h₂.slots F φ π (hc.before hadv))) heq

theorem retraceableAll_nil : RetraceableAll A []
  | _, _, θ, _, _, h, _, .nil => ends_done ⟨θ, h, .of_eq rfl rfl,
      fun _ ht => absurd ht List.not_mem_nil, rfl, fun _ _ _ _ => .nil, fun _ _ _ _ => rfl⟩

theorem retraceableAll_cons {es : List Expr} (ihe : Retraceable A e) (ihes : RetraceableAll A es) :
    RetraceableAll A (e :: es)
  | i, st, θ, Γ, _, h, hbs, .cons he hes => by
    have hbs : ∀ b ∈ e.bindings ++ Expr.bindingsAll es, b.Anchored A := hbs
    rw [List.forall_mem_append] at hbs
    rw [inferAll]
    refine (ihe h hbs.1 he).andThen (fun _ st _ =>
      (inferAll_keeps (i + 1) es st).andThen fun _ _ _ => List.prefix_refl _) ?_
    rintro e' st₁ t ⟨θ₁, h₁⟩
    refine (ihes (i + 1) h₁.echoes hbs.2 hes).andThen
      (fun _ _ _ => List.prefix_refl _) ?_
    rintro es' st₂ ts ⟨θ₂, h₂⟩
    refine ends_done ⟨θ₂, h₂.echoes, h₁.advances.trans h₂.advances,
      List.forall_mem_cons.2 ⟨h₂.advances.knows h₁.knows, h₂.knows⟩, ?_, fun F φ π hc => ?_,
      fun F φ π hc => ?_⟩
    · rw [List.map_cons, h₂.advances.subst_eq h₁.knows, h₁.type, h₂.types]
    · exact .cons (h₁.typed F φ π (hc.before h₂.advances)) (h₂.typed F φ π hc)
    · exact congrArg₂ List.cons (h₁.slots F φ π (hc.before h₂.advances)) (h₂.slots F φ π hc)

end Cases

mutual

/-- Inference on an annotated tree repeats the derivation. -/
theorem infer_retraces : (e : Expr) → Retraceable A e
  | .absent => retraceable_absent
  | .foreign _ => retraceable_foreign
  | .unit => retraceable_unit
  | .bool _ => retraceable_bool
  | .int _ => retraceable_int
  | .var _ => retraceable_var
  | .not e => retraceable_not (infer_retraces e)
  | .neg e => retraceable_neg (infer_retraces e)
  | .arith _ l r => retraceable_arith (infer_retraces l) (infer_retraces r)
  | .eq l r => retraceable_eq (infer_retraces l) (infer_retraces r)
  | .le l r => retraceable_le (infer_retraces l) (infer_retraces r)
  | .ite c e₁ e₂ => retraceable_ite (infer_retraces c) (infer_retraces e₁) (infer_retraces e₂)
  | .letIn _ v e => retraceable_letIn (infer_retraces v) (infer_retraces e)
  | .letRec _ _ body rest => retraceable_letRec (infer_retraces body) (infer_retraces rest)
  | .app fn args _ => retraceable_app (infer_retraces fn) (inferAll_retraces args)
  | .tuple es => retraceable_tuple (inferAll_retraces es)
  | .letTuple _ v e => retraceable_letTuple (infer_retraces v) (infer_retraces e)

theorem inferAll_retraces : (es : List Expr) → RetraceableAll A es
  | [] => retraceableAll_nil
  | e :: es => retraceableAll_cons (infer_retraces e) (inferAll_retraces es)

end

end LetPoly
