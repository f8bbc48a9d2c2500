import LetPoly.Proofs.Passes
import LetPoly.Proofs.Trees

/-!
# The slots after a pass

A pass that ends well fills every slot of the tree. The slots are written at different moments, each
brought up to date with the substitution as it is then, and all of them once more at the end. This
file shows what can be relied on afterwards, without any assumption on the ids at the start: no slot
mentions an id that the substitution binds, the slot of a recursive function shows the slots of its
arguments, and no type is missing unless one was missing before.

## Main definitions

* `Ty.Hereditary`: a property of types that the types inside share, and that all variables have.
* `State.Carries`: the types in the environment and in the substitution have the property.
* `Expr.Annotated`: the slots of a node have the property, and those of a recursive function agree.

## Main results

* `infer_annotates`: inference that ends well annotates all nodes.
* `Context.annotated_of_inferred`: the slots after a pass that ends well.
-/

namespace LetPoly

open Outcome

/-! ### Properties of types -/

namespace Ty

/-- The constants that literals and operators have as their types. -/
def builtin : List String :=
  ["unit", "bool", "int"]

/-- A function or tuple type has the property exactly if the types inside do, and the builtin
constants and variables have it. Another constant or a missing type may or may not have it. -/
structure Hereditary (P : Ty → Prop) : Prop where
  const : ∀ n ∈ builtin, P (.const n)
  var : ∀ v, P (.var v)
  arrow : ∀ {args ret}, P (.arrow args ret) ↔ (∀ a ∈ args, P a) ∧ P ret
  tuple : ∀ {elems}, P (.tuple elems) ↔ ∀ a ∈ elems, P a

theorem hereditary_complete : Hereditary Complete :=
  ⟨fun n _ => complete_const n, complete_var, complete_arrow, complete_tuple⟩

theorem hereditary_true : Hereditary fun _ => True :=
  ⟨fun _ _ => trivial, fun _ => trivial, by simp, by simp⟩

namespace Hereditary

variable {P : Ty → Prop}

theorem replace (hP : Hereditary P) {t u : Ty} {v : Int} (ht : P t) (hu : P u) :
    P (t.replace v u) := by
  rw [Ty.replace]
  induction t using Ty.ind with
  | absent => exact ht
  | const n => exact ht
  | var w =>
    rw [subst_var, single]
    split
    · exact hu
    · exact ht
  | arrow args ret iha ihr =>
    rw [hP.arrow] at ht
    rw [subst_arrow, hP.arrow, List.forall_mem_map]
    exact ⟨fun a ha => iha a ha (ht.1 a ha), ihr ht.2⟩
  | tuple elems ih =>
    rw [hP.tuple] at ht
    rw [subst_tuple, hP.tuple, List.forall_mem_map]
    exact fun a ha => ih a ha (ht a ha)

theorem apply (hP : Hereditary P) {s : Subst} (hs : ∀ q ∈ s, P q.type) {t : Ty} (ht : P t) :
    P (t.apply s) := by
  induction s generalizing t with
  | nil => exact ht
  | cons q s ih =>
    rw [List.forall_mem_cons] at hs
    exact ih hs.2 (hP.replace ht hs.1)

theorem refresh (hP : Hereditary P) (vs : List Int) {t : Ty} (g : Supply) (ht : P t) :
    P (Scheme.refresh vs t g).1 := by
  induction vs generalizing t g with
  | nil => exact ht
  | cons v vs ih => exact ih g.fresh.2 (hP.replace ht (hP.var _))

end Hereditary

end Ty

/-- The slot is empty or has the property. -/
def Binding.Fits (P : Ty → Prop) (b : Binding) : Prop :=
  b.slot = .absent ∨ P b.slot

namespace State

/-- The types in the environment and in the substitution have the property. -/
structure Carries (P : Ty → Prop) (st : State) : Prop where
  bodies : ∀ x ∈ st.env, P x.scheme.body
  types : ∀ q ∈ st.subst, P q.type

namespace Carries

variable {P : Ty → Prop} {st st' : State}

theorem unify (hP : Ty.Hereditary P) (h : st.Carries P) {a b : Ty} (ha : P a) (hb : P b)
    (hu : st.unify a b = (st', none)) : st'.Carries P := by
  obtain ⟨D, hsolved, hs, henv, -⟩ := unify_eq hu
  have hD := hsolved.forall_types hP.replace
    (fun hf => ⟨hP.tuple.2 (hP.arrow.1 hf).1, (hP.arrow.1 hf).2⟩) hP.tuple.1
    (List.forall_mem_singleton.2 ⟨hP.apply h.types ha, hP.apply h.types hb⟩)
  refine ⟨henv ▸ h.bodies, ?_⟩
  rw [hs]
  exact List.forall_mem_append.2 ⟨h.types, fun q hq => (hD q hq).2⟩

theorem freshVar (h : st.Carries P) : st.freshVar.2.Carries P :=
  ⟨h.bodies, h.types⟩

theorem pushMono (h : st.Carries P) (x : String) {t : Ty} (ht : P t) :
    (st.pushMono x t).Carries P :=
  ⟨List.forall_mem_cons.2 ⟨ht, h.bodies⟩, h.types⟩

theorem leave (h : st.Carries P) {n : Nat} (hl : st.leave? n = some st') : st'.Carries P := by
  obtain ⟨-, rfl⟩ := leave?_eq_some.1 hl
  exact ⟨fun x hx => h.bodies x (List.mem_of_mem_drop hx), h.types⟩

theorem resolve (hP : Ty.Hereditary P) (h : st.Carries P) {b : Binding} (hb : P b.slot) :
    P (st.resolve b).slot :=
  hP.apply h.types hb

/-- An empty slot is filled with a variable. -/
theorem declare (hP : Ty.Hereditary P) (h : st.Carries P) {b : Binding} (hb : b.Fits P) :
    (st.declare b).2.Carries P ∧ P (st.declare b).1.slot := by
  rw [State.declare]
  split
  · exact ⟨h.freshVar, hP.var _⟩
  · rename_i hfull
    refine ⟨h, hb.resolve_left fun habs => hfull ?_⟩
    rw [habs]
    rfl

theorem enter (hP : Ty.Hereditary P) (h : st.Carries P) {bs : List Binding}
    (hbs : ∀ b ∈ bs, b.Fits P) :
    (st.enter bs).2.Carries P ∧ ∀ b ∈ (st.enter bs).1, P b.slot := by
  induction bs generalizing st with
  | nil => exact ⟨h, fun _ hb => absurd hb List.not_mem_nil⟩
  | cons b bs ih =>
    rw [List.forall_mem_cons] at hbs
    obtain ⟨hst, hb⟩ := h.declare hP hbs.1
    obtain ⟨hst, hbs⟩ := ih (hst.pushMono _ hb) hbs.2
    exact ⟨hst, List.forall_mem_cons.2 ⟨hb, hbs⟩⟩

theorem refresh (hP : Ty.Hereditary P) (h : st.Carries P) : st.refresh.Carries P := by
  refine ⟨List.forall_mem_map.2 fun x hx => ?_, h.types⟩
  exact hP.apply (fun q hq => h.types q (List.mem_of_mem_filter hq)) (h.bodies x hx)

theorem foldl_bind (h : st.Carries P) {bs : List Binding} (hbs : ∀ b ∈ bs, P b.slot) :
    (bs.foldl State.bind st).Carries P := by
  induction bs generalizing st with
  | nil => exact h
  | cons b bs ih =>
    rw [List.forall_mem_cons] at hbs
    exact ih ⟨List.forall_mem_cons.2 ⟨hbs.1, h.bodies⟩, h.types⟩ hbs.2

/-- The scope in which names are known with generalized types. -/
theorem rest (hP : Ty.Hereditary P) (h : st.Carries P) {bs : List Binding}
    (hbs : ∀ b ∈ bs, P b.slot) :
    ((bs.map st.resolve).foldl State.bind st.refresh).Carries P :=
  (h.refresh hP).foldl_bind (List.forall_mem_map.2 fun b hb => h.resolve hP (hbs b hb))

end Carries

end State

/-! ### Annotated nodes -/

/-- The types in the slots of the node have the property, and if the node binds a recursive
function, the slot of the function is a function type with the slots of the arguments. -/
structure Expr.Annotated (P : Ty → Prop) (n : Expr) : Prop where
  slots : ∀ s ∈ n.ownSlots, P s.type
  func : ∀ fn args body rest, n = .letRec fn args body rest →
    ∃ ret, fn.slot = .arrow (args.map (·.slot)) ret

/-- A substitution leaves an empty slot empty. -/
theorem Ty.ite_isAbsent_apply (t : Ty) (S : Subst) :
    (if t.isAbsent then t else t.apply S) = t.apply S := by
  cases t with
  | absent => exact (Ty.apply_eq_self fun _ _ => List.not_mem_nil).symm
  | _ => rfl

theorem Binding.slot_mapSlot_apply (b : Binding) (S : Subst) :
    (b.mapSlot (·.apply S)).slot = b.slot.apply S := by
  rw [mapSlot, apply_ite Binding.slot]
  exact b.slot.ite_isAbsent_apply S

namespace Expr

variable {P Q : Ty → Prop} {n v e body rest : Expr} {b fn : Binding} {args vars : List Binding}

theorem annotated_of_ownSlots_eq_nil (h : n.ownSlots = []) : n.Annotated P := by
  refine ⟨fun s hs => ?_, ?_⟩
  · rw [h] at hs
    exact absurd hs List.not_mem_nil
  · rintro fn args body rest rfl
    cases h

theorem annotated_letIn : (letIn b v e).Annotated P ↔ P b.slot :=
  ⟨fun h => h.slots _ (List.mem_singleton.2 rfl),
    fun h => ⟨List.forall_mem_singleton.2 h, fun _ _ _ _ heq => nomatch heq⟩⟩

theorem annotated_app {es : List Expr} {t : Ty} : (app e es t).Annotated P ↔ P t :=
  ⟨fun h => h.slots _ (List.mem_singleton.2 rfl),
    fun h => ⟨List.forall_mem_singleton.2 h, fun _ _ _ _ heq => nomatch heq⟩⟩

theorem annotated_letTuple : (letTuple vars v e).Annotated P ↔ ∀ b ∈ vars, P b.slot :=
  ⟨fun h _ hb => h.slots _ (List.mem_map_of_mem hb),
    fun h => ⟨List.forall_mem_map.2 h, fun _ _ _ _ heq => nomatch heq⟩⟩

theorem annotated_letRec : (letRec fn args body rest).Annotated P ↔
    P fn.slot ∧ (∀ b ∈ args, P b.slot) ∧ ∃ ret, fn.slot = .arrow (args.map (·.slot)) ret := by
  constructor
  · intro h
    obtain ⟨hfn, hargs⟩ := List.forall_mem_cons.1 h.slots
    exact ⟨hfn, fun b hb => hargs _ (List.mem_map_of_mem hb), h.func fn args body rest rfl⟩
  · rintro ⟨hfn, hargs, hfunc⟩
    refine ⟨List.forall_mem_cons.2 ⟨hfn, List.forall_mem_map.2 hargs⟩, ?_⟩
    rintro _ _ _ _ ⟨⟩
    exact hfunc

/-- Bringing the slots of a node up to date keeps them in agreement. -/
theorem Annotated.mapSlots {S : Subst} (h : n.Annotated P) (hPQ : ∀ t, P t → Q (t.apply S)) :
    (n.mapSlots (·.apply S)).Annotated Q := by
  have hslot : ∀ b : Binding, P b.slot → Q (b.mapSlot (·.apply S)).slot :=
    fun b hb => b.slot_mapSlot_apply S ▸ hPQ b.slot hb
  cases n with
  | letIn b v e => exact annotated_letIn.2 (hslot b (annotated_letIn.1 h))
  | letRec fn args body rest =>
    obtain ⟨hfn, hargs, ret, hret⟩ := annotated_letRec.1 h
    refine annotated_letRec.2 ⟨hslot fn hfn,
      List.forall_mem_map.2 fun b hb => hslot b (hargs b hb), ret.apply S, ?_⟩
    rw [Binding.slot_mapSlot_apply, hret, Ty.apply_arrow, List.map_map, List.map_map]
    congr 1
    exact List.map_congr_left fun b _ => (b.slot_mapSlot_apply S).symm
  | app fn args t =>
    refine annotated_app.2 ?_
    rw [Ty.ite_isAbsent_apply]
    exact hPQ t (annotated_app.1 h)
  | letTuple vars v e =>
    exact annotated_letTuple.2
      (List.forall_mem_map.2 fun b hb => hslot b (annotated_letTuple.1 h b hb))
  | _ => exact annotated_of_ownSlots_eq_nil rfl

/-- A node without slots is annotated if its children are. -/
theorem everywhere_annotated (hnode : n.isAbsent = false) (hslots : n.ownSlots = [])
    (hchildren : ∀ c ∈ n.children, c.Everywhere (Annotated P)) : n.Everywhere (Annotated P) :=
  (everywhere_iff hnode).2 ⟨annotated_of_ownSlots_eq_nil hslots, hchildren⟩

theorem Everywhere.forall_slots (h : e.Everywhere (Annotated P)) : ∀ s ∈ e.slots, P s.type := by
  intro s hs
  obtain ⟨p, hp, hsp⟩ := List.mem_flatMap.1 hs
  exact (h p hp).slots s hsp

end Expr

/-- Once the type of a function has been made alike with what its body shows, its slot agrees with
the slots of its arguments. -/
theorem State.slot_resolve_func {st st' : State} {fn : Binding} {args : List Binding} {ret : Ty}
    (hu : st.unify fn.slot (.arrow (args.map (·.slot)) ret) = (st', none)) :
    (st'.resolve fn).slot =
      .arrow ((args.map st'.resolve).map (·.slot)) (ret.apply st'.subst) := by
  have heq := apply_eq_of_unify hu (List.prefix_refl _)
  rw [Ty.apply_arrow, List.map_map] at heq
  rw [List.map_map]
  exact heq

/-! ### Whole trees -/

/-- The types in the state, the type found and the slots of the tree have the property. -/
structure Annotates (P : Ty → Prop) (e : Expr) (st : State) (t : Ty) : Prop where
  state : st.Carries P
  type : P t
  nodes : e.Everywhere (Expr.Annotated P)

/-- The same for a list of trees. -/
structure AnnotatesAll (P : Ty → Prop) (es : List Expr) (st : State) (ts : List Ty) : Prop where
  state : st.Carries P
  types : ∀ t ∈ ts, P t
  nodes : ∀ e ∈ es, e.Everywhere (Expr.Annotated P)

theorem Annotates.forall_pair {P : Ty → Prop} {e₁ e₂ : Expr} {st₁ st₂ : State} {t₁ t₂ : Ty}
    (h₁ : Annotates P e₁ st₁ t₁) (h₂ : Annotates P e₂ st₂ t₂) :
    ∀ e ∈ [e₁, e₂], e.Everywhere (Expr.Annotated P) :=
  List.forall_mem_cons.2 ⟨h₁.nodes, List.forall_mem_singleton.2 h₂.nodes⟩

section Runs

open LetPoly.Expr (everywhere_iff everywhere_annotated annotated_letIn annotated_letRec
  annotated_app annotated_letTuple)

variable {P : Ty → Prop}

mutual

/-- Inference that ends well annotates all nodes, whatever the ids. The property `P` of types plays
no part in the agreement between the slots of a recursive function and its arguments. -/
theorem infer_annotates (hP : Ty.Hereditary P) : (e : Expr) → {st : State} → st.Carries P →
    (∀ b ∈ e.bindings, b.Fits P) → (infer e st).Yields (Annotates P)
  | .absent, _, _, _ => yields_failed
  | .unit, _, hst, _ | .bool _, _, hst, _ | .int _, _, hst, _ =>
    yields_done ⟨hst, hP.const _ (by decide), everywhere_annotated rfl rfl fun _ hc =>
      absurd hc List.not_mem_nil⟩
  | .var x, st, hst, _ => by
    rw [infer]
    split
    · exact yields_failed
    · rename_i σ hx
      exact yields_done ⟨⟨hst.bodies, hst.types⟩,
        hP.refresh _ _ (hst.bodies _ (Env.mem_of_lookup hx)),
        everywhere_annotated rfl rfl fun _ hc => absurd hc List.not_mem_nil⟩
  | .not e, _, hst, hbs | .neg e, _, hst, hbs =>
    (infer_annotates hP e hst hbs).andThen fun _ _ _ h => yields_constrain fun _ hu =>
      ⟨h.state.unify hP (hP.const _ (by decide)) h.type hu, hP.const _ (by decide),
        everywhere_annotated rfl rfl (List.forall_mem_singleton.2 h.nodes)⟩
  | .arith _ l r, _, hst, hbs =>
    have hbs := List.forall_mem_append.1 hbs
    (infer_annotates hP l hst hbs.1).andThen fun _ _ _ hl =>
      (infer_annotates hP r hl.state hbs.2).andThen fun _ _ _ hr =>
        yields_unifyThen fun _ hu => yields_constrain fun _ hu' =>
          ⟨(hr.state.unify hP hl.type hr.type hu).unify hP hl.type (hP.const _ (by decide)) hu',
            hP.const _ (by decide), everywhere_annotated rfl rfl (hl.forall_pair hr)⟩
  | .eq l r, _, hst, hbs =>
    have hbs := List.forall_mem_append.1 hbs
    (infer_annotates hP l hst hbs.1).andThen fun _ _ _ hl =>
      (infer_annotates hP r hl.state hbs.2).andThen fun _ _ _ hr => yields_constrain fun _ hu =>
        ⟨hr.state.unify hP hl.type hr.type hu, hP.const _ (by decide),
          everywhere_annotated rfl rfl (hl.forall_pair hr)⟩
  | .le l r, _, hst, hbs =>
    have hbs := List.forall_mem_append.1 hbs
    (infer_annotates hP l hst hbs.1).andThen fun _ _ _ hl => yields_unifyThen fun _ hu =>
      (infer_annotates hP r (hl.state.unify hP (hP.const _ (by decide)) hl.type hu) hbs.2).andThen
        fun _ _ _ hr => yields_constrain fun _ hu' =>
          ⟨hr.state.unify hP (hP.const _ (by decide)) hr.type hu', hP.const _ (by decide),
            everywhere_annotated rfl rfl (hl.forall_pair hr)⟩
  | .ite c e₁ e₂, _, hst, hbs => by
    obtain ⟨hbs, hb₂⟩ := List.forall_mem_append.1 hbs
    obtain ⟨hbc, hb₁⟩ := List.forall_mem_append.1 hbs
    rw [infer]
    refine (infer_annotates hP c hst hbc).andThen fun _ _ _ hc => yields_unifyThen fun _ hu => ?_
    have hst₁ := hc.state.unify hP (hP.const _ (by decide)) hc.type hu
    refine (infer_annotates hP e₁ hst₁ hb₁).andThen fun _ _ _ h₁ =>
      (infer_annotates hP e₂ h₁.state hb₂).andThen fun _ _ _ h₂ =>
        yields_unifyThen fun _ hu' => yields_done ?_
    have hst' := h₂.state.unify hP h₁.type h₂.type hu'
    exact ⟨hst', hP.apply hst'.types h₁.type, everywhere_annotated rfl rfl
      (List.forall_mem_cons.2 ⟨hc.nodes, h₁.forall_pair h₂⟩)⟩
  | .letIn b v e, _, hst, hbs => by
    obtain ⟨hbs, hbe⟩ := List.forall_mem_append.1 hbs
    obtain ⟨hb, hbv⟩ := List.forall_mem_append.1 hbs
    obtain ⟨hst₁, hslot⟩ := hst.declare hP (List.forall_mem_singleton.1 hb)
    rw [infer]
    refine (infer_annotates hP v hst₁ hbv).andThen fun _ _ _ hv =>
      yields_unifyThen fun st₃ hu => ?_
    have hst₃ := hv.state.unify hP hslot hv.type hu
    refine (infer_annotates hP e (hst₃.rest hP (List.forall_mem_singleton.2 hslot)) hbe).leaving
      fun _ _ _ _ he hl => ⟨he.state.leave hl, he.type, (everywhere_iff rfl).2
        ⟨annotated_letIn.2 (hst₃.resolve hP hslot), hv.forall_pair he⟩⟩
  | .letRec fn args body rest, _, hst, hbs => by
    obtain ⟨hbs, hbr⟩ := List.forall_mem_append.1 hbs
    obtain ⟨hbf, hbb⟩ := List.forall_mem_append.1 hbs
    obtain ⟨hst₂, hslots⟩ := hst.enter hP hbf
    obtain ⟨hfn, hargs⟩ := List.forall_mem_cons.1 hslots
    rw [infer]
    refine (infer_annotates hP body hst₂ hbb).andThen fun _ _ _ hbody =>
      yields_leaveThen fun _ hl => yields_unifyThen fun st₅ hu => ?_
    have hst₅ := (hbody.state.leave hl).unify hP hfn
      (hP.arrow.2 ⟨List.forall_mem_map.2 hargs, hbody.type⟩) hu
    -- both slots are written with the substitution that this step leaves, so they agree from now on
    have hfunc := State.slot_resolve_func hu
    refine (infer_annotates hP rest (hst₅.rest hP (List.forall_mem_singleton.2 hfn)) hbr).leaving
      fun _ _ _ _ hrest hl' => ⟨hrest.state.leave hl', hrest.type, (everywhere_iff rfl).2
        ⟨annotated_letRec.2 ⟨hst₅.resolve hP hfn, List.forall_mem_map.2 fun b hb => ?_, _, hfunc⟩,
          hbody.forall_pair hrest⟩⟩
    exact hst₅.resolve hP (hargs b hb)
  | .app fn args _, _, hst, hbs => by
    obtain ⟨hbf, hba⟩ := List.forall_mem_append.1 hbs
    rw [infer]
    refine (infer_annotates hP fn hst hbf).andThen fun _ _ _ hfn =>
      (inferAll_annotates hP 1 args hfn.state hba).andThen fun _ st₂ _ hargs =>
        yields_unifyThen fun _ hu => yields_done ?_
    have hst' := hargs.state.freshVar.unify hP (hP.arrow.2 ⟨hargs.types, hP.var _⟩) hfn.type hu
    have hret := hP.apply hst'.types (hP.var st₂.supply.next)
    exact ⟨hst', hret, (everywhere_iff rfl).2
      ⟨annotated_app.2 hret, List.forall_mem_cons.2 ⟨hfn.nodes, hargs.nodes⟩⟩⟩
  | .tuple es, _, hst, hbs =>
    (inferAll_annotates hP 0 es hst hbs).andThen fun _ _ _ h => yields_done
      ⟨h.state, hP.tuple.2 h.types, everywhere_annotated rfl rfl h.nodes⟩
  | .letTuple vars v e, _, hst, hbs => by
    obtain ⟨hbs, hbe⟩ := List.forall_mem_append.1 hbs
    obtain ⟨hvars, hbv⟩ := List.forall_mem_append.1 hbs
    obtain ⟨hst₁, hslots⟩ := hst.enter hP hvars
    rw [infer]
    refine (infer_annotates hP v hst₁ hbv).andThen fun _ _ _ hv =>
      yields_leaveThen fun _ hl => yields_unifyThen fun st₄ hu => ?_
    have hst₄ := (hv.state.leave hl).unify hP hv.type
      (hP.tuple.2 (List.forall_mem_map.2 hslots)) hu
    refine (infer_annotates hP e (hst₄.rest hP hslots) hbe).leaving
      fun _ _ _ _ he hl' => ⟨he.state.leave hl', he.type, (everywhere_iff rfl).2
        ⟨annotated_letTuple.2 (List.forall_mem_map.2 fun b hb => ?_), hv.forall_pair he⟩⟩
    exact hst₄.resolve hP (hslots b hb)
  | .foreign _, _, _, _ => yields_failed

theorem inferAll_annotates (hP : Ty.Hereditary P) (i : Nat) : (es : List Expr) → {st : State} →
    st.Carries P → (∀ b ∈ Expr.bindingsAll es, b.Fits P) →
    (inferAll i es st).Yields (AnnotatesAll P)
  | [], _, hst, _ => yields_done
    ⟨hst, fun _ ht => absurd ht List.not_mem_nil, fun _ he => absurd he List.not_mem_nil⟩
  | e :: es, _, hst, hbs =>
    have hbs := List.forall_mem_append.1 hbs
    (infer_annotates hP e hst hbs.1).andThen fun _ _ _ h =>
      (inferAll_annotates hP (i + 1) es h.state hbs.2).andThen fun _ _ _ hes => yields_done
        ⟨hes.state, List.forall_mem_cons.2 ⟨h.type, hes.types⟩,
          List.forall_mem_cons.2 ⟨h.nodes, hes.nodes⟩⟩

end

end Runs

/-! ### Passes -/

namespace Context

/-- What the environment and the filled slots share before a pass, all slots share after it. -/
theorem annotates_of_done {P : Ty → Prop} (hP : Ty.Hereditary P) {env : Env} {root e' : Expr}
    {g : Supply} {st' : State} {t : Ty}
    (hdone : LetPoly.infer root ⟨env, [], g, []⟩ = done e' st' t)
    (henv : ∀ x ∈ env, P x.scheme.body) (hroot : ∀ s ∈ root.slots, s.type = .absent ∨ P s.type) :
    Annotates P e' st' t := by
  have hbs : ∀ b ∈ root.bindings, b.Fits P := by
    intro b hb
    obtain ⟨s, hs, -, hslot⟩ := Expr.exists_slot hb
    rw [Binding.Fits, ← hslot]
    exact hroot s hs
  exact infer_annotates hP root ⟨henv, fun _ hq => absurd hq List.not_mem_nil⟩ hbs e' st' t hdone

/-- **The slots after a pass that ends well are resolved, and agree with each other**, whatever the
ids at the start. Neither the type found nor a slot mentions an id that the substitution binds, and
the slot of every recursive function is a function type whose arguments are the slots of its
arguments, in order. If no type is missing inside the environment or inside a slot that is filled at
the start, none is missing inside the type found or inside a slot, and no slot is empty. -/
theorem annotated_of_inferred (ctx : Context) (mode : Mode) (env : Env) (root : Expr) (T : Ty)
    (h : (ctx.pass mode env root).verdict = .inferred T) :
    (∀ q ∈ (ctx.pass mode env root).context.subst,
      q.var ∉ T.vars ∧ ∀ s ∈ (ctx.pass mode env root).tree.slots, q.var ∉ s.type.vars) ∧
    (∀ path fn args body rest,
      (path, .letRec fn args body rest) ∈ (ctx.pass mode env root).tree.places →
        ∃ ret, fn.slot = .arrow (args.map (·.slot)) ret) ∧
    ((∀ x ∈ env, x.scheme.body.Complete) →
      (∀ s ∈ root.slots, s.type = .absent ∨ s.type.Complete) →
        T.Complete ∧ ∀ s ∈ (ctx.pass mode env root).tree.slots, s.type.Complete) := by
  obtain ⟨g, e', st', t, hdone, rfl, htree, hsubst⟩ := exists_done_of_inferred h
  rw [htree, hsubst]
  have htri : (LetPoly.infer root ⟨env, [], g, []⟩).Leaves fun st => st.subst.Triangular :=
    infer_leaves State.stable_triangular root Subst.triangular_nil
  rw [hdone] at htri
  have hresolved := htri.not_mem_vars_apply
  have hnodes := (annotates_of_done Ty.hereditary_true hdone (fun _ _ => trivial)
    fun _ _ => .inr trivial).nodes.mapSlots fun _ hn =>
      hn.mapSlots (Q := fun u => ∀ q ∈ st'.subst, q.var ∉ u.vars) fun u _ => hresolved u
  refine ⟨fun q hq => ⟨hresolved t q hq, fun s hs => hnodes.forall_slots s hs q hq⟩,
    fun path fn args body rest hmem => (hnodes _ hmem).func fn args body rest rfl, ?_⟩
  intro henv hroot
  have h := annotates_of_done Ty.hereditary_complete hdone henv hroot
  have hnodes := h.nodes.mapSlots fun _ hn =>
    hn.mapSlots (Q := Ty.Complete) fun _ hu => hu.apply h.state.types
  exact ⟨h.type.apply h.state.types, hnodes.forall_slots⟩

/-- The identity function, used once, its argument with a variable of its own. -/
def idOnce : Expr :=
  .letRec ⟨"id", .absent⟩ [⟨"x", .var 2⟩] (.var "x")
    (.app (.var "pair") [.app (.var "id") [.int 1] .absent] .absent)

/-- The first id drawn, for the type of `id`, is the one that the environment has for the unknown
type in the result of `pair`. -/
theorem annotated_of_inferred_idOnce :
    ((fresh (some ⟨1⟩)).pass .onCopy pairEnv idOnce).verdict =
        .inferred (.tuple [.int, .arrow [.int] .int]) ∧
      ⟨1, .arrow [.var 2] (.var 2)⟩ ∈
        ((fresh (some ⟨1⟩)).pass .onCopy pairEnv idOnce).context.subst ∧
      (∀ s ∈ ((fresh (some ⟨1⟩)).pass .onCopy pairEnv idOnce).tree.slots,
        1 ∉ s.type.vars ∧ s.type.Complete) ∧
      ∃ fn args body rest,
        ((fresh (some ⟨1⟩)).pass .onCopy pairEnv idOnce).tree = .letRec fn args body rest ∧
        ∃ ret, fn.slot = .arrow (args.map (·.slot)) ret := by
  have hverdict : ((fresh (some ⟨1⟩)).pass .onCopy pairEnv idOnce).verdict =
      .inferred (.tuple [.int, .arrow [.int] .int]) := by
    cbv
  have hmem : ⟨1, .arrow [.var 2] (.var 2)⟩ ∈
      ((fresh (some ⟨1⟩)).pass .onCopy pairEnv idOnce).context.subst :=
    List.mem_of_getElem? (i := 0) (by cbv)
  have htree : ((fresh (some ⟨1⟩)).pass .onCopy pairEnv idOnce).tree =
      .letRec ⟨"id", .arrow [.int] .int⟩ [⟨"x", .int⟩] (.var "x")
        (.app (.var "pair") [.app (.var "id") [.int 1] .int]
          (.tuple [.int, .arrow [.int] .int])) := by
    cbv
  obtain ⟨hresolved, hfunc, hcomplete⟩ :=
    annotated_of_inferred (fresh (some ⟨1⟩)) .onCopy pairEnv idOnce _ hverdict
  refine ⟨hverdict, hmem, fun s hs => ⟨(hresolved _ hmem).2 s hs, ?_⟩, _, _, _, _, htree, ?_⟩
  · exact (hcomplete (by decide) (by decide)).2 s hs
  · rw [htree] at hfunc
    exact hfunc [] _ _ _ _ List.mem_cons_self

end Context

end LetPoly
