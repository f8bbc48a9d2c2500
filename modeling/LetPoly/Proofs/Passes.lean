import LetPoly.Proofs.Invariants
import LetPoly.Proofs.Starts

/-!
# Passes and histories of a context

A context is used for one pass after the other. A pass may annotate the tree it is given or a copy
of it; it may fail, be refused because there is no tree, or stop at a foreign node, before or after
the context has forgotten the pass before it. Whatever has happened, two things hold of a context:
its substitution is triangular, and a context that has nothing to forget is like a new one. So what
a pass finds does not depend on the history of its context.

## Main definitions

* `Mode`, `Context.pass`: the two kinds of passes.
* `Call`, `Context.after`: what can happen to a context, and the context after a history of that.
* `Context.Clean`: a context that has nothing to forget remembers nothing.

## Main results

* `Expr.copy_eq`: a copy is the tree again.
* `Context.pass_eq`, `Context.context_infer`: what a pass can do.
* `Context.exists_conclude`, `Context.exists_done_of_inferred`: a pass is a run of inference.
* `Context.holds_after`: what every call keeps holds after every history.
* `Context.subst_resolves_after`: the substitution of a context is triangular, so it resolves a type
  once and for all, and can be applied all at once.
* `Context.pass_eq_pass_fresh`: a pass does what the same pass of a new context does.
-/

namespace LetPoly

/-! ### Copies -/

namespace Expr

mutual

/-- A copy is the tree again, if it is made at all. -/
theorem copy_eq : (e : Expr) → e.copy = .ok e ∨ ∃ k, e.copy = .error k
  | .absent | .unit | .bool _ | .int _ | .var _ => .inl rfl
  | .foreign name => .inr ⟨⟨name⟩, rfl⟩
  | .not e | .neg e => by
    rw [copy]
    rcases copy_eq e with h | ⟨k, h⟩
    · exact .inl (by rw [h]; rfl)
    · exact .inr ⟨k, by rw [h]; rfl⟩
  | .arith _ l r | .eq l r | .le l r | .letIn _ l r | .letRec _ _ l r | .letTuple _ l r => by
    rw [copy]
    rcases copy_eq l with hl | ⟨k, hl⟩
    · rcases copy_eq r with hr | ⟨k, hr⟩
      · exact .inl (by rw [hl, hr]; rfl)
      · exact .inr ⟨k, by rw [hl, hr]; rfl⟩
    · exact .inr ⟨k, by rw [hl]; rfl⟩
  | .ite c e₁ e₂ => by
    rw [copy]
    rcases copy_eq c with hc | ⟨k, hc⟩
    · rcases copy_eq e₁ with h₁ | ⟨k, h₁⟩
      · rcases copy_eq e₂ with h₂ | ⟨k, h₂⟩
        · exact .inl (by rw [hc, h₁, h₂]; rfl)
        · exact .inr ⟨k, by rw [hc, h₁, h₂]; rfl⟩
      · exact .inr ⟨k, by rw [hc, h₁]; rfl⟩
    · exact .inr ⟨k, by rw [hc]; rfl⟩
  | .app fn args _ => by
    rw [copy]
    rcases copyAll_eq args with ha | ⟨k, ha⟩
    · rcases copy_eq fn with hf | ⟨k, hf⟩
      · exact .inl (by rw [ha, hf]; rfl)
      · exact .inr ⟨k, by rw [ha, hf]; rfl⟩
    · exact .inr ⟨k, by rw [ha]; rfl⟩
  | .tuple es => by
    rw [copy]
    rcases copyAll_eq es with h | ⟨k, h⟩
    · exact .inl (by rw [h]; rfl)
    · exact .inr ⟨k, by rw [h]; rfl⟩

theorem copyAll_eq : (es : List Expr) → copyAll es = .ok es ∨ ∃ k, copyAll es = .error k
  | [] => .inl rfl
  | e :: es => by
    rw [copyAll]
    rcases copy_eq e with he | ⟨k, he⟩
    · rcases copyAll_eq es with hes | ⟨k, hes⟩
      · exact .inl (by rw [he, hes]; rfl)
      · exact .inr ⟨k, by rw [he, hes]; rfl⟩
    · exact .inr ⟨k, by rw [he]; rfl⟩

end

end Expr

/-! ### Passes -/

/-- How a pass treats the tree it is given. -/
inductive Mode where
  /-- The tree itself is annotated, whether or not the caller wants the type as well. -/
  | inPlace
  /-- The tree is copied first, and the copy is annotated. -/
  | onCopy
  deriving DecidableEq

namespace Context

/-- A pass over a tree in an environment. -/
def pass (ctx : Context) : Mode → Env → Expr → Pass
  | .inPlace, env, root => ctx.infer env root
  | .onCopy, env, root => ctx.annotate env root

/-- A pass does the same on a copy as in place, but for what becomes of the tree it was given; or
the tree cannot be copied, and nothing happens at all. -/
theorem pass_eq (ctx : Context) (mode : Mode) (env : Env) (root : Expr) :
    (∃ given, ctx.pass mode env root = { ctx.infer env root with given }) ∨
      ∃ k, ctx.pass mode env root = ⟨ctx, root, root, .stopped k, []⟩ := by
  cases mode with
  | inPlace => exact .inl ⟨_, rfl⟩
  | onCopy =>
    rw [pass, annotate, infer]
    cases root.isAbsent with
    | true => exact .inl ⟨root, rfl⟩
    | false =>
      rcases root.copy_eq with hc | ⟨k, hc⟩
      · exact .inl ⟨root, by simp [hc]⟩
      · exact .inr ⟨k, by simp [hc]⟩

/-- What becomes of a context: a pass over no tree leaves it as it is, a pass that stops makes it
forget the pass before, and any other pass is recorded after that. -/
theorem context_infer (ctx : Context) (env : Env) (root : Expr) :
    (ctx.infer env root).context = ctx ∨ (ctx.infer env root).context = ctx.reset ∨
      ∃ g, (ctx.infer env root).context =
        ctx.reset.record (LetPoly.infer root ⟨env, [], g, []⟩) := by
  rw [infer]
  split
  · exact .inl rfl
  · rw [runOn]
    cases hg : ctx.reset.passSupply env root with
    | error k => exact .inr (.inl rfl)
    | ok g =>
      refine .inr (.inr ⟨g, ?_⟩)
      simp only
      split <;> rfl

/-- The events of a pass are those of inference, if it comes to that. -/
theorem trace_pass {ctx : Context} {env : Env} {root : Expr} {g : Supply}
    (hg : ctx.passSupply env root = .ok g) (mode : Mode) :
    (ctx.pass mode env root).trace = [] ∨
      (ctx.pass mode env root).trace =
        (LetPoly.infer root ⟨env, [], g, []⟩).state.trace := by
  rcases ctx.pass_eq mode env root with ⟨given, heq⟩ | ⟨k, heq⟩
  · rw [heq]
    cases hroot : root.isAbsent with
    | true =>
      rw [infer, hroot, if_pos rfl]
      exact .inl rfl
    | false => exact .inr (trace_infer hg hroot)
  · rw [heq]
    exact .inl rfl

/-- A pass over no tree is refused. -/
theorem pass_of_isAbsent {root : Expr} (hroot : root.isAbsent = true) (ctx : Context) (mode : Mode)
    (env : Env) : ctx.pass mode env root = ⟨ctx, root, root, .failed .empty, []⟩ := by
  cases mode with
  | inPlace => rw [pass, infer, hroot, if_pos rfl]
  | onCopy => rw [pass, annotate, hroot, if_pos rfl]

/-- A pass over a tree is a run of inference, unless it stops. -/
theorem exists_conclude {ctx : Context} {mode : Mode} {env : Env} {root : Expr} {v : Verdict}
    (hroot : root.isAbsent = false) (h : (ctx.pass mode env root).verdict = v)
    (hstop : ∀ k, v ≠ .stopped k) :
    ∃ g given, ctx.passSupply env root = .ok g ∧ ctx.pass mode env root =
      { ctx.reset.conclude (LetPoly.infer root ⟨env, [], g, []⟩) with given } := by
  rcases ctx.pass_eq mode env root with ⟨given, heq⟩ | ⟨k, heq⟩
  · cases hg : ctx.passSupply env root with
    | error k =>
      refine absurd ?_ (hstop k)
      rw [← h, heq, infer, hroot, if_neg Bool.false_ne_true, runOn]
      simp only [passSupply_reset, hg]
    | ok g =>
      rw [infer_eq_conclude hg hroot] at heq
      exact ⟨g, given, rfl, heq⟩
  · exact absurd (h.symm.trans (congrArg Pass.verdict heq)) (hstop k)

/-- A pass that ends well is one in which inference does, and gives back what inference has found,
brought up to date. -/
theorem exists_done_of_inferred {ctx : Context} {mode : Mode} {env : Env} {root : Expr} {T : Ty}
    (h : (ctx.pass mode env root).verdict = .inferred T) :
    ∃ g e' st' t, LetPoly.infer root ⟨env, [], g, []⟩ = Outcome.done e' st' t ∧
      T = t.apply st'.subst ∧
      (ctx.pass mode env root).tree = e'.mapSlots (·.apply st'.subst) ∧
      (ctx.pass mode env root).context.subst = st'.subst := by
  cases hroot : root.isAbsent with
  | true =>
    rw [pass_of_isAbsent hroot] at h
    cases h
  | false =>
    obtain ⟨g, given, -, heq⟩ := exists_conclude hroot h (by simp)
    rw [heq, conclude] at h ⊢
    cases hr : (LetPoly.infer root ⟨env, [], g, []⟩).result with
    | ok t =>
      simp only [hr] at h ⊢
      exact ⟨g, _, _, t, Outcome.eq_done_of_result hr, (Verdict.inferred.inj h).symm, rfl,
        by simp only [record, hr]⟩
    | error f =>
      simp only [hr] at h
      cases h

/-- A pass over a tree that fails is one in which inference does, and records what inference has
found. -/
theorem exists_error_of_failed {ctx : Context} {mode : Mode} {env : Env} {root : Expr}
    {err : InferError} (hroot : root.isAbsent = false)
    (h : (ctx.pass mode env root).verdict = .failed err) :
    ∃ g f, ctx.passSupply env root = .ok g ∧
      (LetPoly.infer root ⟨env, [], g, []⟩).result = .error f ∧ f.error = err ∧
      (ctx.pass mode env root).context =
        ctx.reset.record (LetPoly.infer root ⟨env, [], g, []⟩) ∧
      (ctx.pass mode env root).trace = (LetPoly.infer root ⟨env, [], g, []⟩).state.trace := by
  obtain ⟨g, given, hg, heq⟩ := exists_conclude hroot h (by simp)
  rw [heq] at h ⊢
  cases hr : (LetPoly.infer root ⟨env, [], g, []⟩).result with
  | ok t =>
    simp only [conclude, hr] at h
    cases h
  | error f =>
    simp only [conclude, hr] at h
    exact ⟨g, f, hg, hr, Verdict.failed.inj h, context_conclude _ _, trace_conclude _ _⟩

end Context

/-! ### Histories -/

/-- What can happen to a context. -/
inductive Call where
  | pass (mode : Mode) (env : Env) (root : Expr)
  | reset
  /-- Others draw from the supply that the passes share, until it is at `g`. -/
  | advance (g : Supply)

namespace Context

/-- The context after one call. -/
def call (ctx : Context) : Call → Context
  | .pass mode env root => (ctx.pass mode env root).context
  | .reset => ctx.reset
  | .advance g => { ctx with supply := ctx.supply.map fun _ => g }

/-- The context after a history of calls, first call first. -/
def after (ctx : Context) (history : List Call) : Context :=
  history.foldl call ctx

/-- What every call keeps holds after every history. -/
theorem holds_after {J : Context → Prop} (hcall : ∀ ctx c, J ctx → J (ctx.call c)) {ctx : Context}
    (h : J ctx) (history : List Call) : J (ctx.after history) := by
  induction history generalizing ctx with
  | nil => exact h
  | cons c history ih => exact ih (hcall ctx c h)

/-- What holds of a context after each of the things that a call can do to it holds after the
call. -/
theorem holds_call {J : Context → Prop} {ctx : Context} (h : J ctx) (hreset : J ctx.reset)
    (hrecord : ∀ root env g, J (ctx.reset.record (LetPoly.infer root ⟨env, [], g, []⟩)))
    (hadvance : ∀ supply, J { ctx with supply }) (c : Call) : J (ctx.call c) := by
  cases c with
  | reset => exact hreset
  | advance g => exact hadvance _
  | pass mode env root =>
    rw [call]
    rcases ctx.pass_eq mode env root with ⟨given, heq⟩ | ⟨k, heq⟩
    · rw [heq]
      change J (ctx.infer env root).context
      rcases ctx.context_infer env root with hc | hc | ⟨g, hc⟩
      · rwa [hc]
      · rwa [hc]
      · rw [hc]
        exact hrecord root env g
    · rw [heq]
      exact h

/-! ### The substitution of a context -/

theorem subst_record (ctx : Context) (o : Outcome Expr Ty) :
    (ctx.record o).subst = o.state.subst := by
  rw [record]
  split <;> rfl

theorem triangular_reset {ctx : Context} (h : ctx.subst.Triangular) :
    ctx.reset.subst.Triangular := by
  rw [reset]
  split
  · exact Subst.triangular_nil
  · exact h

theorem triangular_call (ctx : Context) (c : Call) (h : ctx.subst.Triangular) :
    (ctx.call c).subst.Triangular := by
  refine holds_call (J := fun ctx => ctx.subst.Triangular) h (triangular_reset h)
    (fun root env g => ?_) (fun _ => h) c
  rw [subst_record]
  exact infer_leaves State.stable_triangular root Subst.triangular_nil

end Context

/-- The id that an equation of a triangular list binds goes to the type of the equation with the
later equations applied. -/
theorem Subst.Triangular.eval_getElem {s : Subst} (hs : s.Triangular) (k : Nat)
    (hk : k < s.length) : s.eval s[k].var = s[k].type.apply (s.drop (k + 1)) := by
  have hsplit : s = s.take k ++ s[k] :: s.drop (k + 1) := by
    rw [← List.drop_eq_getElem_cons hk, List.take_append_drop]
  -- the equations before it bind other ids
  have hbefore : ∀ q ∈ s.take k, q.var ≠ s[k].var := by
    intro q hq
    have hlater := hs.later
    rw [hsplit, List.pairwise_append] at hlater
    exact Ne.symm (hlater.2.2 q hq s[k] List.mem_cons_self).1
  calc s.eval s[k].var
      = (Subst.eval (s.take k) s[k].var).apply (s[k] :: s.drop (k + 1)) := by
        rw [← Subst.eval_append, ← hsplit]
    _ = (Ty.var s[k].var).apply (s[k] :: s.drop (k + 1)) := by
        rw [Subst.eval_of_forall_ne hbefore]
    _ = s[k].type.apply (s.drop (k + 1)) := by
        rw [Ty.apply_cons, Ty.replace, Ty.subst_var, Ty.single, if_pos rfl]

namespace Context

/-- **The substitution of a context is always triangular**, after any passes over any trees in any
environments with any supply of ids, whether they end well or not: the ids bound are distinct, and
no equation mentions its own id or one bound before it. So a type it has been applied to mentions
none of the ids bound, applying it again changes nothing, and applying its equations one after the
other is replacing all ids bound at once, each by its type with the later equations applied. -/
theorem subst_resolves_after (gen : Option Supply) (history : List Call) :
    let S := ((fresh gen).after history).subst
    S.Triangular ∧
    (∀ t : Ty, ∀ q ∈ S, q.var ∉ (t.apply S).vars) ∧
    (∀ t : Ty, (t.apply S).apply S = t.apply S) ∧
    ∃ σ : Int → Ty,
      (∀ (k : Nat) (hk : k < S.length), σ S[k].var = S[k].type.apply (S.drop (k + 1))) ∧
      (∀ v, (∀ q ∈ S, q.var ≠ v) → σ v = .var v) ∧
      ∀ t : Ty, t.apply S = t.subst σ := by
  intro S
  have hS : S.Triangular := holds_after triangular_call Subst.triangular_nil history
  refine ⟨hS, hS.not_mem_vars_apply, fun t => ?_, S.eval, hS.eval_getElem,
    fun v => Subst.eval_of_forall_ne, fun t => t.apply_eq_subst S⟩
  exact Ty.apply_eq_self (hS.not_mem_vars_apply t)

/-- A function that is given types with variables, and a body that does not fit. -/
def misfit : Expr :=
  .letRec ⟨"f", .var 1⟩ [⟨"x", .var 0⟩, ⟨"y", .var 2⟩]
    (.eq (.app (.var "x") [.int 1] .absent) (.var "y")) (.not (.int 3))

/-- A pass that draws the last id and fails leaves a chain of equations: the first one mentions the
id that the second one binds. -/
theorem subst_resolves_after_misfit :
    ((fresh (some ⟨Supply.last⟩)).after [.pass .inPlace [] misfit]).subst =
        [⟨0, .arrow [.int] (.var Supply.last)⟩, ⟨Supply.last, .var 2⟩,
          ⟨1, .arrow [.arrow [.int] (.var 2), .var 2] .bool⟩] ∧
      ((Ty.var 0).apply ((fresh (some ⟨Supply.last⟩)).after [.pass .inPlace [] misfit]).subst).apply
          ((fresh (some ⟨Supply.last⟩)).after [.pass .inPlace [] misfit]).subst =
        (Ty.var 0).apply ((fresh (some ⟨Supply.last⟩)).after [.pass .inPlace [] misfit]).subst ∧
      Supply.last ∉ ((Ty.var 0).apply
        ((fresh (some ⟨Supply.last⟩)).after [.pass .inPlace [] misfit]).subst).vars := by
  have hS : ((fresh (some ⟨Supply.last⟩)).after [.pass .inPlace [] misfit]).subst =
      [⟨0, .arrow [.int] (.var Supply.last)⟩, ⟨Supply.last, .var 2⟩,
        ⟨1, .arrow [.arrow [.int] (.var 2), .var 2] .bool⟩] := by
    cbv
  obtain ⟨-, hresolved, hagain, -⟩ :=
    subst_resolves_after (some ⟨Supply.last⟩) [.pass .inPlace [] misfit]
  refine ⟨hS, hagain (.var 0), hresolved (.var 0) ⟨Supply.last, .var 2⟩ ?_⟩
  rw [hS]
  exact List.mem_cons_of_mem _ List.mem_cons_self

/-! ### Independence of the history -/

/-- A context that has nothing to forget is like a new one. -/
def Clean (ctx : Context) : Prop :=
  ctx.used = false → ctx = fresh ctx.supply

theorem Clean.reset_eq {ctx : Context} (h : ctx.Clean) : ctx.reset = fresh ctx.supply := by
  rw [reset]
  split
  · rfl
  · rename_i hused
    exact h (Bool.eq_false_iff.2 hused)

theorem clean_fresh (gen : Option Supply) : (fresh gen).Clean :=
  fun _ => rfl

theorem clean_record (ctx : Context) (o : Outcome Expr Ty) : (ctx.record o).Clean := by
  have hused : (ctx.record o).used = true := by
    rw [record]
    split <;> rfl
  intro h
  rw [hused] at h
  cases h

theorem clean_call (ctx : Context) (c : Call) (h : ctx.Clean) : (ctx.call c).Clean := by
  refine holds_call h (h.reset_eq ▸ clean_fresh ctx.supply) (fun _ _ _ => clean_record _ _)
    (fun supply hused => ?_) c
  rw [h hused]
  rfl

/-- Only what is left of a context after forgetting counts for a pass. -/
theorem runOn_congr {ctx ctx' : Context} (h : ctx.reset = ctx'.reset) (env : Env) (root : Expr) :
    ctx.runOn env root = ctx'.runOn env root := by
  rw [runOn, runOn, h]

/-- **What a pass does is independent of the history of its context.** After any calls, a pass over
a tree that is there, unless it stops at a foreign node, is the same in every respect as the pass of
a new context with the supply of ids as it is by then: the verdict, the tree and its slots, the
substitution, the error and the node to blame. -/
theorem pass_eq_pass_fresh (gen : Option Supply) (history : List Call) (mode : Mode) (env : Env)
    (root : Expr) (hroot : root.isAbsent = false)
    (hgo : ∀ k, (((fresh gen).after history).pass mode env root).verdict ≠ .stopped k) :
    ((fresh gen).after history).pass mode env root =
      (fresh ((fresh gen).after history).supply).pass mode env root := by
  have hclean : ((fresh gen).after history).Clean :=
    holds_after clean_call (clean_fresh gen) history
  have hrun : ∀ env root, ((fresh gen).after history).runOn env root =
      (fresh ((fresh gen).after history).supply).runOn env root :=
    runOn_congr hclean.reset_eq
  cases mode with
  | inPlace => simp only [pass, infer, hroot, hrun, Bool.false_eq_true, if_false]
  | onCopy =>
    simp only [pass, annotate, hroot, Bool.false_eq_true, if_false] at hgo ⊢
    cases hc : root.copy with
    | error k =>
      rw [hc] at hgo
      exact absurd rfl (hgo k)
    | ok copy => simp only [hrun]

/-- A pass that fails, one that stops before the context forgets it, one that stops after that, and
one without a tree. -/
def mishaps : List Call :=
  [.pass .inPlace [] misfit, .pass .onCopy [] (.foreign "loop"),
    .pass .inPlace [] (.not (.foreign "loop")), .pass .onCopy [] .absent]

theorem pass_eq_pass_fresh_mishaps :
    (((fresh none).after mishaps).pass .onCopy pairEnv idTwice).verdict =
        .inferred (.tuple [.int, .tuple [.bool, .var 1]]) ∧
      ((fresh none).after mishaps).pass .onCopy pairEnv idTwice =
        (fresh none).pass .onCopy pairEnv idTwice := by
  have h : (((fresh none).after mishaps).pass .onCopy pairEnv idTwice).verdict =
      .inferred (.tuple [.int, .tuple [.bool, .var 1]]) := by
    cbv
  have hsupply : ((fresh none).after mishaps).supply = none := by
    cbv
  have heq := pass_eq_pass_fresh none mishaps .onCopy pairEnv idTwice rfl fun k hk => by
    rw [h] at hk
    cases hk
  exact ⟨h, by rw [heq, hsupply]⟩

end Context

end LetPoly
