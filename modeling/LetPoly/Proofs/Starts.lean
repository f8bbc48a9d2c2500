import LetPoly.Inference.Context
import LetPoly.Proofs.Framing
import Mathlib.Data.List.Flatten
import Mathlib.Data.List.Nodup
import Mathlib.Data.List.Permutation

/-!
# Starts of inference passes

A pass over a tree may rely on the variables that it finds: those in the slots of the bindings and
those of the environment do not get into each other's way, and the supply of fresh variables lies
above all of them. Nothing is asked of the nodes: for a missing or foreign node no type is found,
and none can be derived.

## Main definitions

* `Expr.slotVars`, `Env.ids`: the variables in the slots of a tree and in an environment.
* `WellFormed`: the starts without clashes, decidable.

## Main results

* `Expr.map_slot_bindings`: the bindings of a tree have its slots, but for those of applications.
* `WellFormed.ready`: such a start leaves the slots of all bindings untouched.
* `Context.passSupply_eq`: without a supply a pass starts right above the ids in slots and bodies.
* `Context.infer_of_done`, `Context.exists_done`: a pass ends well if inference does.
-/

namespace LetPoly

/-! ### Slots and bindings -/

namespace Expr

/-- The variables in the slots of a tree, as often as they occur. -/
def slotVars (e : Expr) : List Int :=
  e.slots.flatMap fun s => s.type.vars

/-- The types in the slots of the bindings among some nodes. -/
private def binderTypes (nodes : List (Path × Expr)) : List Ty :=
  ((nodes.flatMap fun p => p.2.ownSlots).filter fun s => s.kind ≠ .application).map (·.type)

private theorem binderTypes_cons (p : Path) (e : Expr) (nodes : List (Path × Expr)) :
    binderTypes ((p, e) :: nodes) =
      (e.ownSlots.filter fun s => s.kind ≠ .application).map (·.type) ++ binderTypes nodes := by
  simp [binderTypes]

private theorem binderTypes_append (xs ys : List (Path × Expr)) :
    binderTypes (xs ++ ys) = binderTypes xs ++ binderTypes ys := by
  simp [binderTypes]

private theorem binderTypes_under (i : Nat) (nodes : List (Path × Expr)) :
    binderTypes (under i nodes) = binderTypes nodes := by
  simp only [binderTypes, under, List.flatMap_map]

mutual

private theorem binderTypes_places : (e : Expr) → binderTypes e.places = e.bindings.map (·.slot)
  | .absent | .unit | .bool _ | .int _ | .var _ | .foreign _ => rfl
  | .not e | .neg e => by
    rw [places, binderTypes_cons, binderTypes_under, binderTypes_places e, bindings]
    rfl
  | .arith _ l r | .eq l r | .le l r => by
    rw [places, binderTypes_cons, binderTypes_append, binderTypes_under, binderTypes_under,
      binderTypes_places l, binderTypes_places r, bindings, List.map_append]
    rfl
  | .ite c e₁ e₂ => by
    rw [places, binderTypes_cons, binderTypes_append, binderTypes_append, binderTypes_under,
      binderTypes_under, binderTypes_under, binderTypes_places c, binderTypes_places e₁,
      binderTypes_places e₂, bindings, List.map_append, List.map_append]
    rfl
  | .letIn b v e => by
    rw [places, binderTypes_cons, binderTypes_append, binderTypes_under, binderTypes_under,
      binderTypes_places v, binderTypes_places e, bindings, List.map_append, List.map_append]
    rfl
  | .letRec fn args body rest => by
    rw [places, binderTypes_cons, binderTypes_append, binderTypes_under, binderTypes_under,
      binderTypes_places body, binderTypes_places rest, bindings, List.map_append, List.map_append]
    simp [ownSlots, List.filter_map, Function.comp_def]
  | .app fn args t => by
    rw [places, binderTypes_cons, binderTypes_append, binderTypes_under, binderTypes_places fn,
      binderTypes_placesFrom 1 args, bindings, List.map_append]
    rfl
  | .tuple es => by
    rw [places, binderTypes_cons, binderTypes_placesFrom 0 es, bindings]
    rfl
  | .letTuple vars v e => by
    rw [places, binderTypes_cons, binderTypes_append, binderTypes_under, binderTypes_under,
      binderTypes_places v, binderTypes_places e, bindings, List.map_append, List.map_append]
    simp [ownSlots, List.filter_map, Function.comp_def]

private theorem binderTypes_placesFrom : (i : Nat) → (es : List Expr) →
    binderTypes (placesFrom i es) = (bindingsAll es).map (·.slot)
  | _, [] => rfl
  | i, e :: es => by
    rw [placesFrom, binderTypes_append, binderTypes_under, binderTypes_places e,
      binderTypes_placesFrom (i + 1) es, bindingsAll, List.map_append]

end

/-- The bindings of a tree have the slots of the tree, but for those of applications. -/
theorem map_slot_bindings (e : Expr) :
    e.bindings.map (·.slot) =
      (e.slots.filter fun s => s.kind ≠ .application).map (·.type) :=
  (binderTypes_places e).symm

/-- The slot of a binding is a slot of the tree. -/
theorem exists_slot {e : Expr} {b : Binding} (hb : b ∈ e.bindings) :
    ∃ s ∈ e.slots, s.kind ≠ .application ∧ s.type = b.slot := by
  have hmem : b.slot ∈ e.bindings.map (·.slot) := List.mem_map_of_mem hb
  rw [map_slot_bindings] at hmem
  obtain ⟨s, hs, hslot⟩ := List.mem_map.1 hmem
  obtain ⟨hs, hkind⟩ := List.mem_filter.1 hs
  exact ⟨s, hs, by simpa using hkind, hslot⟩

theorem reserve_bindings_sublist (e : Expr) : (reserve e.bindings).Sublist e.slotVars := by
  have heq : reserve e.bindings =
      (e.slots.filter fun s => s.kind ≠ .application).flatMap fun s => s.type.vars := by
    have hmap := congrArg (List.flatMap Ty.vars) e.map_slot_bindings
    rwa [List.flatMap_map, List.flatMap_map] at hmap
  rw [heq]
  exact List.filter_sublist.flatMap _

end Expr

/-- The ids of an environment: those in the bodies and those that are quantified. -/
def Env.ids (env : Env) : List Int :=
  env.flatMap fun x => x.scheme.body.vars ++ x.scheme.bound.ids

/-! ### The largest id in slots and bodies -/

theorem le_foldl_max (vs : List Int) (low : Int) :
    low ≤ vs.foldl max low ∧ ∀ v ∈ vs, v ≤ vs.foldl max low := by
  induction vs generalizing low with
  | nil => exact ⟨Int.le_refl low, fun _ hv => absurd hv List.not_mem_nil⟩
  | cons v vs ih =>
    obtain ⟨hlow, hvs⟩ := ih (max low v)
    rw [List.foldl_cons]
    exact ⟨by omega, List.forall_mem_cons.2 ⟨by omega, hvs⟩⟩

theorem Env.neg_one_le_maxVar (env : Env) (root : Expr) : -1 ≤ env.maxVar root.maxVar :=
  Int.le_trans (le_foldl_max _ _).1 (le_foldl_max _ _).1

theorem Env.first_le_maxVar (env : Env) (root : Expr) :
    Supply.first ≤ env.maxVar root.maxVar + 1 := by
  have := env.neg_one_le_maxVar root
  rw [Supply.first]
  omega

theorem Env.lt_maxVar (env : Env) (root : Expr) :
    ∀ v ∈ root.slotVars ++ env.flatMap (·.scheme.body.vars), v < env.maxVar root.maxVar + 1 := by
  refine List.forall_mem_append.2 ⟨fun v hv => ?_, fun v hv => ?_⟩
  · have hroot : v ≤ root.maxVar := (le_foldl_max _ _).2 v hv
    have henv : root.maxVar ≤ env.maxVar root.maxVar := (le_foldl_max _ _).1
    omega
  · exact Int.lt_add_one_of_le ((le_foldl_max _ _).2 v hv)

/-! ### Starts without clashes -/

/-- Variables that a pass finds in the environment `env`, in the slots of the tree `root` and in the
supply `g` do not clash. -/
structure WellFormed (env : Env) (root : Expr) (g : Supply) : Prop where
  /-- No type is missing inside a slot. -/
  slots : ∀ s ∈ root.slots, s.type = .absent ∨ s.type.Complete
  /-- A binding has no type, a type without variables, or a lone variable of its own. -/
  binders : ∀ s ∈ root.slots, s.kind ≠ .application → s.type = .absent ∨ s.type.vars = [] ∨
    ∃ v ∈ s.type.vars, s.type = .var v ∧ root.slotVars.count v = 1 ∧ v ∉ env.ids
  /-- No type is missing inside a scheme. -/
  schemes : ∀ x ∈ env, x.scheme.body.Complete
  /-- A quantified id is not free anywhere. -/
  quantified : ∀ x ∈ env, ∀ v ∈ x.scheme.bound.ids, ¬ v ∈ env.freeVars ∧ v ∉ root.slotVars
  /-- Fresh ids are above all ids there are. -/
  below : ∀ v ∈ root.slotVars ++ env.ids, v < g.next
  /-- Ids are words. -/
  word : Supply.first ≤ g.next

instance (env : Env) (root : Expr) (g : Supply) : Decidable (WellFormed env root g) :=
  decidable_of_iff
    ((∀ s ∈ root.slots, s.type = .absent ∨ s.type.Complete) ∧
      (∀ s ∈ root.slots, s.kind ≠ .application → s.type = .absent ∨ s.type.vars = [] ∨
        ∃ v ∈ s.type.vars, s.type = .var v ∧ root.slotVars.count v = 1 ∧ v ∉ env.ids) ∧
      (∀ x ∈ env, x.scheme.body.Complete) ∧
      (∀ x ∈ env, ∀ v ∈ x.scheme.bound.ids, ¬ v ∈ env.freeVars ∧ v ∉ root.slotVars) ∧
      (∀ v ∈ root.slotVars ++ env.ids, v < g.next) ∧ Supply.first ≤ g.next)
    ⟨fun ⟨h₁, h₂, h₃, h₄, h₅, h₆⟩ => ⟨h₁, h₂, h₃, h₄, h₅, h₆⟩,
      fun ⟨h₁, h₂, h₃, h₄, h₅, h₆⟩ => ⟨h₁, h₂, h₃, h₄, h₅, h₆⟩⟩

namespace WellFormed

variable {env : Env} {root : Expr} {g : Supply}

/-- A variable in the slot of a binding is alone in the slot and occurs nowhere else. -/
theorem alone (h : WellFormed env root g) {v : Int} (hv : v ∈ reserve root.bindings) :
    root.slotVars.count v = 1 ∧ v ∉ env.ids := by
  obtain ⟨b, hb, hvb⟩ := List.mem_flatMap.1 hv
  obtain ⟨s, hs, hkind, hslot⟩ := Expr.exists_slot hb
  rw [← hslot] at hvb
  rcases h.binders s hs hkind with habs | hnil | ⟨w, -, hw, hcount, hids⟩
  · rw [habs] at hvb
    exact absurd hvb List.not_mem_nil
  · rw [hnil] at hvb
    exact absurd hvb List.not_mem_nil
  · rw [hw, Ty.mem_vars_var] at hvb
    exact hvb ▸ ⟨hcount, hids⟩

theorem plain (h : WellFormed env root g) : ∀ b ∈ root.bindings, b.Plain := by
  intro b hb
  obtain ⟨s, hs, hkind, hslot⟩ := Expr.exists_slot hb
  rw [Binding.Plain, ← hslot]
  rcases h.binders s hs hkind with habs | hnil | ⟨v, -, hv, -⟩
  · exact .inl habs
  · exact (h.slots s hs).imp_right fun hcomplete => .inl ⟨hcomplete, hnil⟩
  · exact .inr (.inr ⟨v, hv⟩)

theorem below_ids (h : WellFormed env root g) {x : Entry} (hx : x ∈ env) {v : Int}
    (hv : v ∈ x.scheme.body.vars ++ x.scheme.bound.ids) : v < g.next :=
  h.below v (List.mem_append_right _ (List.mem_flatMap.2 ⟨x, hx, hv⟩))

theorem regular (h : WellFormed env root g) : (State.mk env [] g []).Regular where
  low := h.word
  triangular := Subst.triangular_nil
  complete := fun _ hq => absurd hq List.not_mem_nil
  below := Subst.within_nil _
  bodies := fun x hx => ⟨h.schemes x hx, fun v hv => h.below_ids hx (List.mem_append_left _ hv)⟩
  bounds := by
    rintro v ⟨x, hx, hv⟩
    refine ⟨h.below_ids hx (List.mem_append_right _ hv), ?_, fun _ hq => absurd hq List.not_mem_nil⟩
    rintro ⟨u, hu, hvu⟩
    exact (h.quantified x hx v hv).1 (Ty.mem_vars_var.1 hvu ▸ hu)

/-- Before a pass, the slots of all bindings are untouched. -/
theorem ready (h : WellFormed env root g) : Ready root.bindings ⟨env, [], g, []⟩ where
  regular := h.regular
  plain := h.plain
  nodup := List.nodup_iff_count_le_one.2 fun v => by
    by_cases hv : v ∈ reserve root.bindings
    · exact Nat.le_trans (root.reserve_bindings_sublist.count_le v) (Nat.le_of_eq (h.alone hv).1)
    · rw [List.count_eq_zero_of_not_mem hv]
      exact Nat.zero_le 1
  untouched := fun v hv => by
    have hids : ∀ x ∈ env, v ∉ x.scheme.body.vars ++ x.scheme.bound.ids :=
      fun x hx hvx => (h.alone hv).2 (List.mem_flatMap.2 ⟨x, hx, hvx⟩)
    refine ⟨h.below v (List.mem_append_left _ (root.reserve_bindings_sublist.mem hv)),
      Subst.within_nil _, ?_, ?_⟩
    · intro hfree
      obtain ⟨x, hx, hvx⟩ := Env.mem_freeVars.1 hfree
      exact hids x hx (List.mem_append_left _ (Scheme.mem_freeVars.1 hvx).1)
    · rintro ⟨x, hx, hvx⟩
      exact hids x hx (List.mem_append_right _ hvx)

end WellFormed

/-- A function that pairs its argument with something of an unknown type. -/
def pairEnv : Env :=
  [⟨"pair", ⟨VarSet.ofList [0], .arrow [.var 0] (.tuple [.var 0, .var 1])⟩⟩]

/-- The identity function used at two types, its argument with a variable of its own. -/
def idTwice : Expr :=
  .letRec ⟨"id", .absent⟩ [⟨"x", .var 2⟩] (.var "x")
    (.tuple [.app (.var "id") [.int 1] .absent,
      .app (.var "pair") [.app (.var "id") [.bool true] .absent] .absent])

theorem wellFormed_idTwice : WellFormed pairEnv idTwice ⟨3⟩ := by
  decide

theorem noWrap_idTwice :
    NoWrap ((Context.fresh (some ⟨3⟩)).infer pairEnv idTwice).trace :=
  noWrap_iff.2 (by cbv)

/-! ### Passes -/

namespace Context

/-- A function of an unknown type, in a scheme that lists an id it does not have in its body. -/
def listing (v : Int) : Env :=
  [⟨"f", ⟨VarSet.ofList [v], .var 0⟩⟩]

/-- The results of the function are used as a condition and as a number. -/
def mixedCalls : Expr :=
  .letIn ⟨"y", .absent⟩ (.app (.var "f") [.int 1] .absent)
    (.ite (.app (.var "f") [.int 2] .absent) (.app (.var "f") [.int 3] .absent) (.int 0))

variable {ctx : Context} {env : Env} {root e' : Expr} {g : Supply} {st' : State} {t T : Ty}

theorem passSupply_reset (ctx : Context) (env : Env) (root : Expr) :
    ctx.reset.passSupply env root = ctx.passSupply env root := by
  have hsupply : ctx.reset.supply = ctx.supply := by
    rw [reset]
    split <;> rfl
  rw [passSupply, passSupply, hsupply]

/-- Without a supply of its own, a pass starts right above the ids in slots and bodies. -/
theorem passSupply_eq (hctx : ctx.supply = none) (hu : root.unknown? = none)
    (hroom : env.maxVar root.maxVar < Supply.last) :
    ctx.passSupply env root = .ok ⟨env.maxVar root.maxVar + 1⟩ := by
  have hlow := env.neg_one_le_maxVar root
  have hsucc : Supply.after (env.maxVar root.maxVar) = ⟨env.maxVar root.maxVar + 1⟩ :=
    congrArg Supply.mk (Supply.succ_eq (by rw [Supply.first]; omega) hroom)
  simp only [passSupply, hctx, hu, hsucc]

theorem eq_of_passSupply (hctx : ctx.supply = none) (hroom : env.maxVar root.maxVar < Supply.last)
    (hg : ctx.passSupply env root = .ok g) : g = ⟨env.maxVar root.maxVar + 1⟩ := by
  cases hu : root.unknown? with
  | none => exact Except.ok.inj (hg.symm.trans (passSupply_eq hctx hu hroom))
  | some k => simp [passSupply, hctx, hu] at hg

/-- The pass that ends with an outcome of inference. -/
def conclude (ctx : Context) (o : Outcome Expr Ty) : Pass :=
  match o.result with
  | .ok t =>
    ⟨ctx.record o, o.tree.mapSlots (·.apply o.state.subst),
      o.tree.mapSlots (·.apply o.state.subst), .inferred (t.apply o.state.subst), o.state.trace⟩
  | .error f => ⟨ctx.record o, o.tree, o.tree, .failed f.error, o.state.trace⟩

/-- A pass that comes to inference ends with its outcome. -/
theorem infer_eq_conclude (hg : ctx.passSupply env root = .ok g) (hroot : root.isAbsent = false) :
    ctx.infer env root = ctx.reset.conclude (LetPoly.infer root ⟨env, [], g, []⟩) := by
  rw [infer, hroot, if_neg Bool.false_ne_true, runOn]
  simp only [passSupply_reset, hg]
  rfl

theorem context_conclude (ctx : Context) (o : Outcome Expr Ty) :
    (ctx.conclude o).context = ctx.record o := by
  rw [conclude]
  split <;> rfl

theorem trace_conclude (ctx : Context) (o : Outcome Expr Ty) :
    (ctx.conclude o).trace = o.state.trace := by
  rw [conclude]
  split <;> rfl

theorem trace_infer (hg : ctx.passSupply env root = .ok g) (hroot : root.isAbsent = false) :
    (ctx.infer env root).trace = (LetPoly.infer root ⟨env, [], g, []⟩).state.trace := by
  rw [infer_eq_conclude hg hroot, trace_conclude]

/-- A pass ends well if inference does. -/
theorem infer_of_done (hg : ctx.passSupply env root = .ok g) (hroot : root.isAbsent = false)
    (h : LetPoly.infer root ⟨env, [], g, []⟩ = Outcome.done e' st' t) :
    (ctx.infer env root).verdict = .inferred (t.apply st'.subst) ∧
      (ctx.infer env root).tree = e'.mapSlots (·.apply st'.subst) ∧
      (ctx.infer env root).context.subst = st'.subst := by
  rw [infer, hroot, if_neg Bool.false_ne_true, runOn]
  simp only [passSupply_reset, hg, h]
  exact ⟨rfl, rfl, rfl⟩

/-- A pass ends well only if inference does. -/
theorem exists_done (hg : ctx.passSupply env root = .ok g)
    (h : (ctx.infer env root).verdict = .inferred T) :
    root.isAbsent = false ∧
      ∃ e' st' t, LetPoly.infer root ⟨env, [], g, []⟩ = Outcome.done e' st' t := by
  cases hroot : root.isAbsent with
  | true =>
    rw [infer, hroot, if_pos rfl] at h
    cases h
  | false =>
    refine ⟨rfl, ?_⟩
    rw [infer, hroot, if_neg Bool.false_ne_true, runOn] at h
    simp only [passSupply_reset, hg] at h
    split at h
    · rename_i t ht
      exact ⟨_, _, t, Outcome.eq_done_of_result ht⟩
    · cases h

end Context

end LetPoly
