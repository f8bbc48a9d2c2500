import LetPoly.Proofs.Passes
import LetPoly.Proofs.Stability

/-!
# The ids that a pass draws

A pass without a supply of its own starts right above the largest id in the slots of the tree and in
the bodies of the schemes in the environment, and draws one id after the other. So it never draws an
id that occurs there. Ids that a scheme lists as quantified without having them in its body are not
looked at: the pass draws such an id if it happens to lie among the next ones. A step that brings
the environment up to date then takes it for the quantified one and passes over its equation, so
that a type is lost.

## Main definitions

* `drawn`: the ids among the events of a run, in order.
* `State.DrawsFrom`: the ids drawn so far are those that a supply hands out first.

## Main results

* `State.stable_drawn`: at every moment, the ids drawn are those that the supply hands out.
* `drawn_infer`: without overflow the ids that inference draws are consecutive.
* `Context.drawn_pass`: the ids that a pass draws lie right above those in slots and bodies.
* `Context.drawn_fresh`: when they are fresh.
* `Context.drawn_listed`: an id that is drawn though a scheme lists it, and the type that is lost.
-/

namespace LetPoly

/-! ### Draws -/

/-- The ids that were drawn, in order. -/
def drawn (events : List Event) : List Int :=
  events.filterMap fun
    | .drawn v => some v
    | _ => none

@[simp]
theorem drawn_append (xs ys : List Event) : drawn (xs ++ ys) = drawn xs ++ drawn ys :=
  List.filterMap_append

theorem drawn_map_drawn (vs : List Int) : drawn (vs.map .drawn) = vs := by
  rw [drawn, List.filterMap_map]
  exact List.filterMap_some

theorem drawn_map_bound (s : Subst) : drawn (s.map .bound) = [] := by
  rw [drawn, List.filterMap_map]
  exact List.filterMap_eq_nil_iff.2 fun _ _ => rfl

theorem mem_drawn {events : List Event} {v : Int} : v ∈ drawn events ↔ .drawn v ∈ events := by
  rw [drawn, List.mem_filterMap]
  constructor
  · rintro ⟨x, hx, hv⟩
    cases x with
    | drawn w =>
      obtain rfl := Option.some.inj hv
      exact hx
    | _ => cases hv
  · exact fun h => ⟨_, h, rfl⟩

/-- Each variable that is renamed takes one id from the supply. -/
theorem Scheme.snd_refresh (vs : List Int) (t : Ty) (g : Supply) :
    (refresh vs t g).2 = (g.freshList vs.length).2 := by
  induction vs generalizing t g with
  | nil => rfl
  | cons v vs ih => exact ih _ _

namespace State

/-- The ids drawn so far are those that the supply `g` hands out first. -/
def DrawsFrom (g : Supply) (st : State) : Prop :=
  g.freshList (drawn st.trace).length = (drawn st.trace, st.supply)

variable {g : Supply} {st : State}

/-- A step that records no draw and leaves the supply alone. -/
theorem DrawsFrom.of_eq (h : st.DrawsFrom g) {st' : State}
    (htrace : drawn st'.trace = drawn st.trace) (hsupply : st'.supply = st.supply) :
    st'.DrawsFrom g := by
  rw [DrawsFrom, htrace, hsupply]
  exact h

/-- A step that draws `k` ids. -/
theorem DrawsFrom.draw (h : st.DrawsFrom g) {st' : State} {k : Nat}
    (htrace : st'.trace = st.trace ++ (st.supply.freshList k).1.map .drawn)
    (hsupply : st'.supply = (st.supply.freshList k).2) : st'.DrawsFrom g := by
  rw [DrawsFrom, htrace, hsupply, drawn_append, drawn_map_drawn, List.length_append,
    Supply.length_freshList, Supply.freshList_add, h]

/-- **At every moment, the ids drawn are those that the supply hands out**, one after the other. -/
theorem stable_drawn (g : Supply) : Stable (DrawsFrom g) where
  freshVar h := h.draw (k := 1) rfl rfl
  instantiate σ h := h.draw (k := σ.bound.size) rfl (Scheme.snd_refresh _ _ _)
  unify {st} a b h := by
    refine h.of_eq ?_ ?_ <;> rw [unify]
    · split <;> rw [drawn_append, drawn_map_bound, List.append_nil]
    · split <;> rfl
  pushMono _ _ h := h
  leave h hl := by
    obtain ⟨-, rfl⟩ := leave?_eq_some.1 hl
    exact h
  refresh h := h.of_eq (by rw [refresh, drawn_append]; exact List.append_nil _) rfl
  bind _ h := h.of_eq (by rw [bind, drawn_append]; exact List.append_nil _) rfl

end State

/-- **Without overflow inference draws consecutive ids**, and leaves the supply right behind
them. -/
theorem drawn_infer {env : Env} {e : Expr} {g : Supply} (hlow : Supply.first ≤ g.next)
    (hroom : NoWrap (infer e ⟨env, [], g, []⟩).state.trace) :
    let st := (infer e ⟨env, [], g, []⟩).state
    drawn st.trace = Supply.idsFrom g.next (drawn st.trace).length ∧
      st.supply = ⟨g.next + (drawn st.trace).length⟩ := by
  intro st
  have hdraws : st.DrawsFrom g := infer_leaves (State.stable_drawn g) e rfl
  rw [State.DrawsFrom] at hdraws
  have heq := Supply.freshList_eq hlow (k := (drawn st.trace).length)
    (by rw [hdraws]; exact fun v hv => hroom v (mem_drawn.1 hv))
  exact Prod.mk.inj (hdraws.symm.trans heq)

/-! ### Passes -/

namespace Context

variable {ctx : Context} {mode : Mode} {env : Env} {root : Expr}

/-- A pass has no events, or those of inference. -/
theorem trace_pass_cases (ctx : Context) (mode : Mode) (env : Env) (root : Expr) :
    (ctx.pass mode env root).trace = [] ∨ ∃ g, ctx.passSupply env root = .ok g ∧
      (ctx.pass mode env root).trace = (LetPoly.infer root ⟨env, [], g, []⟩).state.trace := by
  cases hg : ctx.passSupply env root with
  | ok g => exact (trace_pass hg mode).imp_right fun htrace => ⟨g, rfl, htrace⟩
  | error k =>
    left
    rcases ctx.pass_eq mode env root with ⟨given, heq⟩ | ⟨k, heq⟩ <;> rw [heq]
    rw [infer]
    split
    · rfl
    · rw [runOn]
      simp only [passSupply_reset, hg]

/-- **A pass draws the ids right above those in slots and bodies**, one after the other. -/
theorem drawn_pass (hctx : ctx.supply = none) (hstart : env.maxVar root.maxVar < Supply.last)
    (hroom : NoWrap (ctx.pass mode env root).trace) :
    drawn (ctx.pass mode env root).trace = Supply.idsFrom (env.maxVar root.maxVar + 1)
      (drawn (ctx.pass mode env root).trace).length := by
  rcases ctx.trace_pass_cases mode env root with htrace | ⟨g, hg, htrace⟩
  · rw [htrace]
    rfl
  · rw [htrace] at hroom ⊢
    obtain rfl := eq_of_passSupply hctx hstart hg
    exact (drawn_infer (env.first_le_maxVar root) hroom).1

theorem mem_drawn_pass (hctx : ctx.supply = none) (hstart : env.maxVar root.maxVar < Supply.last)
    (hroom : NoWrap (ctx.pass mode env root).trace) {v : Int} :
    v ∈ drawn (ctx.pass mode env root).trace ↔
      env.maxVar root.maxVar < v ∧
        v ≤ env.maxVar root.maxVar + (drawn (ctx.pass mode env root).trace).length := by
  have hmem := congrArg (v ∈ ·) (drawn_pass hctx hstart hroom)
  rw [hmem, Supply.mem_idsFrom]
  omega

/-- An id that lies above the largest one occurs in no slot and in no body. -/
theorem not_mem_of_maxVar_lt {v : Int} (hv : env.maxVar root.maxVar < v) :
    v ∉ root.slotVars ∧ ∀ x ∈ env, v ∉ x.scheme.body.vars := by
  have hlt := env.lt_maxVar root
  rw [List.forall_mem_append] at hlt
  refine ⟨fun hslot => ?_, fun x hx hbody => ?_⟩
  · have := hlt.1 v hslot
    omega
  · have := hlt.2 v (List.mem_flatMap.2 ⟨x, hx, hbody⟩)
    omega

/-- **When the ids that a pass draws are fresh.** A pass without a supply of its own draws one id
after the other, from right above those in the slots of the tree and in the bodies of the schemes.
So none of them occurs there, free or quantified. They avoid all ids of the environment exactly if
no scheme lists one of the next ids as quantified, as it may if it does not have it in its body. -/
theorem drawn_fresh (hctx : ctx.supply = none) (hstart : env.maxVar root.maxVar < Supply.last)
    (hroom : NoWrap (ctx.pass mode env root).trace) :
    let ids := drawn (ctx.pass mode env root).trace
    let top := env.maxVar root.maxVar
    ids = Supply.idsFrom (top + 1) ids.length ∧
    (∀ v ∈ ids, v ∉ root.slotVars ∧ ∀ x ∈ env, v ∉ x.scheme.body.vars) ∧
    ((∀ v ∈ ids, v ∉ root.slotVars ++ env.ids) ↔
      ∀ x ∈ env, ∀ v ∈ x.scheme.bound.ids, v ≤ top ∨ top + ids.length < v) := by
  intro ids top
  have hmem : ∀ v, v ∈ ids ↔ top < v ∧ v ≤ top + ids.length :=
    fun v => mem_drawn_pass hctx hstart hroom
  have hocc : ∀ v ∈ ids, v ∉ root.slotVars ∧ ∀ x ∈ env, v ∉ x.scheme.body.vars :=
    fun v hv => not_mem_of_maxVar_lt ((hmem v).1 hv).1
  refine ⟨drawn_pass hctx hstart hroom, hocc, fun h x hx v hv => ?_, fun h v hv hno => ?_⟩
  · by_contra hbetween
    have hdrawn := (hmem v).2 (by omega)
    exact h v hdrawn (List.mem_append_right _
      (List.mem_flatMap.2 ⟨x, hx, List.mem_append_right _ hv⟩))
  · rcases List.mem_append.1 hno with hslot | henv
    · exact (hocc v hv).1 hslot
    · obtain ⟨x, hx, hvx⟩ := List.mem_flatMap.1 henv
      rcases List.mem_append.1 hvx with hbody | hbound
      · exact (hocc v hv).2 x hx hbody
      · have hbetween := (hmem v).1 hv
        have := h x hx v hbound
        omega

/-- An id that is listed out of reach of the pass does no harm. -/
theorem drawn_fresh_mixedCalls :
    drawn ((fresh none).pass .inPlace (listing 40) mixedCalls).trace = [1, 2, 3, 4, 5, 6, 7] ∧
      ∀ v ∈ drawn ((fresh none).pass .inPlace (listing 40) mixedCalls).trace,
        v ∉ mixedCalls.slotVars ++ (listing 40).ids := by
  have hdrawn : drawn ((fresh none).pass .inPlace (listing 40) mixedCalls).trace =
      [1, 2, 3, 4, 5, 6, 7] := by
    cbv
  have hfresh := @drawn_fresh (fresh none) .inPlace (listing 40) mixedCalls rfl (by decide)
    (noWrap_iff.2 (by cbv))
  refine ⟨hdrawn, hfresh.2.2.2 ?_⟩
  rw [hdrawn]
  decide

/-- **An id that a scheme lists may be drawn.** It is then taken for a quantified one, so that the
condition and the number may differ; with a supply above all ids of the environment the pass finds
that they do not fit. -/
theorem drawn_listed :
    (3 ∈ (listing 3).ids ∧ 3 ∈ drawn ((fresh none).pass .inPlace (listing 3) mixedCalls).trace) ∧
      ((fresh none).pass .inPlace (listing 3) mixedCalls).verdict = .inferred .int ∧
      ((fresh (some ⟨4⟩)).pass .inPlace (listing 3) mixedCalls).verdict =
        .failed (.type ⟨.mismatch, .bool, .int⟩) := by
  refine ⟨⟨by decide, ?_⟩, by cbv, by cbv⟩
  have hdrawn : drawn ((fresh none).pass .inPlace (listing 3) mixedCalls).trace =
      [1, 2, 3, 4, 5, 6, 7] := by
    cbv
  rw [hdrawn]
  decide

end Context

end LetPoly
