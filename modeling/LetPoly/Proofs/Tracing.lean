import LetPoly.Log.Trace
import LetPoly.Proofs.Plans
import LetPoly.Proofs.Scoping
import LetPoly.Proofs.Sections

/-!
# The log of equations

While debugging is on for unification, each equation is logged at the moment it is found. A step
that makes two types alike adds its equations to the substitution when it has ended well, and so the
log shows the substitution of the pass, equation by equation. A step that fails has found equations
too, some or none, and these are in the log only. After such a step nothing is logged any more.

## Main definitions

* `equationsOf`: the equations among the events of a run.
* `State.Logged`: the events tell the substitution.
* `Log.bindLine`, `Log.isBindLine`: the line of an equation, and what tells it from other lines.

## Main results

* `State.scoped_logged`: how equations get into the events and into the substitution.
* `equationsOf_trace_of_failed`: what the events tell when a run has failed.
* `Log.filter_isBindLine`: the lines of equations that a pass has logged.
* `Context.logged_of_pass`: the log shows the substitution, and what a failed step found.
-/

namespace LetPoly

/-! ### Equations among the events -/

/-- The equation that was found, if the event is about one. -/
def Event.equation? : Event → Option Equation
  | .bound q => some q
  | .drawn _ | .refreshed _ _ | .generalized _ _ => none

/-- The equations among the events, in order. -/
def equationsOf (events : List Event) : Subst :=
  events.filterMap Event.equation?

@[simp] theorem equationsOf_append (xs ys : List Event) :
    equationsOf (xs ++ ys) = equationsOf xs ++ equationsOf ys :=
  List.filterMap_append

/-- Other events do not tell equations. -/
theorem equationsOf_concat (xs : List Event) {x : Event} (hx : x.equation? = none) :
    equationsOf (xs ++ [x]) = equationsOf xs := by
  rw [equationsOf_append, equationsOf, equationsOf, List.filterMap_cons_none hx, List.filterMap_nil,
    List.append_nil]

@[simp] theorem equationsOf_map_bound (s : Subst) : equationsOf (s.map .bound) = s := by
  rw [equationsOf, List.filterMap_map]
  exact List.filterMap_some

@[simp] theorem equationsOf_map_drawn (ids : List Int) : equationsOf (ids.map .drawn) = [] := by
  rw [equationsOf, List.filterMap_map]
  exact List.filterMap_eq_nil_iff.2 fun _ _ => rfl

/-- The environment has room for the names that have been added, and the equations among the events
are those of the substitution. -/
structure State.Logged (n : Nat) (st : State) : Prop where
  depth : n ≤ st.env.length
  equations : equationsOf st.trace = st.subst

/-- **The events tell the substitution**: every step that ends well adds the same equations to both,
and only steps that make types alike add any. -/
theorem State.scoped_logged : State.Scoped State.Logged where
  freshVar h := ⟨scoped_depth.freshVar h.depth, (equationsOf_concat _ rfl).trans h.equations⟩
  instantiate σ h := ⟨scoped_depth.instantiate σ h.depth, by
    simpa [instantiate] using h.equations⟩
  unify {n st st' a b} h hu := by
    refine ⟨scoped_depth.unify h.depth hu, ?_⟩
    simp only [unify] at hu
    split at hu
    · cases hu
    · obtain ⟨rfl, -⟩ := Prod.mk.inj hu
      simp only [equationsOf_append, equationsOf_map_bound, h.equations]
  pushMono x t h := ⟨scoped_depth.pushMono x t h.depth, h.equations⟩
  leave {n k st} h := by
    obtain ⟨st', hl, hdepth⟩ := scoped_depth.leave h.depth
    refine ⟨st', hl, hdepth, ?_⟩
    obtain ⟨-, rfl⟩ := leave?_eq_some.1 hl
    exact h.equations
  refresh h := ⟨scoped_depth.refresh h.depth, (equationsOf_concat _ rfl).trans h.equations⟩
  bind b h := ⟨scoped_depth.bind b h.depth, (equationsOf_concat _ rfl).trans h.equations⟩

/-! ### Runs -/

/-- **What the events tell when a run has failed.** If types could not be made alike, this happened
in one step at the node that is to blame. The events tell the substitution and the equations that
this step found. If something else was wrong, the events tell the substitution. -/
theorem equationsOf_trace_of_failed {e : Expr} {st : State} (hst : equationsOf st.trace = st.subst)
    {f : Failure} (hf : (infer e st).result = .error f) :
    (∀ err, f.error ≠ .type err) ∧
        equationsOf (infer e st).state.trace = (infer e st).state.subst ∨
      ∃ err p c st₁ a b st₂, f = ⟨.type err, some p⟩ ∧ Visits e st p c st₁ ∧
        (c.plan st₁).Takes (.unify a b) st₂ ∧ st₂.subst = (infer e st).state.subst ∧
        (solve [⟨a.apply st₂.subst, b.apply st₂.subst⟩]).failure = some err ∧
        equationsOf (infer e st).state.trace =
          st₂.subst ++ (solve [⟨a.apply st₂.subst, b.apply st₂.subst⟩]).solved := by
  have hK := State.scoped_logged
  have hlogged : st.Logged 0 := ⟨Nat.zero_le _, hst⟩
  obtain ⟨p, c, st₁, act, st₂, st₃, f₀, hv, htakes, hbreaks, rfl, hsame⟩ := exists_fault e hf
  obtain ⟨m, -, hlogged₁⟩ := hv.exists_scoped hK hlogged
  have hsafe := (c.keeps_plan hK hlogged₁).safe hK htakes
  rw [State.SameRest] at hsame
  cases hbreaks with
  | @unify a b _ _ err hu =>
    obtain ⟨rfl, hfailure⟩ := State.unify_eq_failed hu
    refine .inr ⟨err, p, c, st₁, a, b, st₂, Failure.foldr_under_here p _, hv, htakes, ?_, hfailure,
      ?_⟩
    · rw [hsame]
    · rw [hsame, equationsOf_append, equationsOf_map_bound, hsafe.equations]
  | leave _ => exact absurd (Failure.error_foldr_under p _) (error_ne_scopeUnderflow e hf)
  | fault =>
    refine .inl ⟨fun err => ?_, ?_⟩
    · rw [Failure.error_foldr_under]
      exact hsafe.1.ne_type err
    · rw [hsame]
      exact hsafe.2.equations

/-! ### Lines -/

namespace Log

/-- The line of an equation. -/
def bindLine (q : Equation) : String :=
  " ".intercalate ["level=DEBUG", "msg=bind", "section=unify",
    "var=" ++ Text.quoteIfNeeded (Ty.var q.var).render,
    "type=" ++ Text.quoteIfNeeded q.type.render]

/-- Is the line one of an equation? -/
def isBindLine (line : String) : Bool :=
  "level=DEBUG msg=bind ".toList.isPrefixOf line.toList

/-- Every line of a debug record begins in the same way. -/
theorem line_of_debug (l : Logger) (message : String) (attrs : List Attr)
    (hmessage : Text.needsQuotes message = false) :
    l.line ⟨Level.debug, message, attrs⟩ = " ".intercalate ("level=DEBUG" ::
      ("msg=" ++ message) :: (l.carried ++ attrs.filterMap (renderAttr? l.groups))) := by
  have hlevel : "level=" ++ Level.debug.render = "level=DEBUG" := by decide
  simp only [Logger.line, hlevel, Text.quoteIfNeeded, hmessage, if_neg Bool.false_ne_true,
    List.cons_append, List.nil_append]

/-- Outside of groups a key is written as it is. -/
theorem renderAttr?_nil {key : String} (htime : key ≠ "time") (hkey : Text.needsQuotes key = false)
    (value : String) :
    renderAttr? [] ⟨key, value⟩ = some (key ++ "=" ++ Text.quoteIfNeeded value) := by
  simp [renderAttr?, htime, Text.quoteIfNeeded, hkey]

theorem line_bindRecord (q : Equation) : shared.line (bindRecord q) = bindLine q := by
  have hunify : Text.quoteIfNeeded "unify" = "unify" := by decide
  rw [bindRecord, line_of_debug _ _ _ (by decide), bindLine]
  simp only [shared, sectionKey, List.filterMap_cons, List.filterMap_nil,
    renderAttr?_nil (show "section" ≠ "time" by decide) (by decide),
    renderAttr?_nil (show "var" ≠ "time" by decide) (by decide),
    renderAttr?_nil (show "type" ≠ "time" by decide) (by decide), hunify]
  rfl

theorem isBindLine_bindLine (q : Equation) : isBindLine (bindLine q) = true := by
  simp [isBindLine, bindLine, String.intercalate_cons_cons]

theorem isBindLine_generalizeRecord (l : Logger) (name : String) (σ : Scheme) :
    isBindLine (l.line (generalizeRecord name σ)) = false := by
  rw [generalizeRecord, line_of_debug _ _ _ (by decide), String.intercalate_cons_cons]
  generalize l.carried ++ _ = rest
  cases rest with
  | nil => rfl
  | cons s rest => simp [isBindLine, String.intercalate_cons_cons, List.isPrefixOf]

theorem emit?_bindRecord {s : Settings} (h : s.enabled "unify" = true) (q : Equation) :
    shared.emit? s (bindRecord q) = some (bindLine q) := by
  obtain ⟨hlevel, hallows⟩ := Settings.enabled_iff.1 h
  rw [← line_bindRecord]
  exact (Logger.emit?_eq_some_iff rfl).2
    ⟨hlevel, .inr ⟨"unify", List.mem_append_right _ List.mem_cons_self, hallows⟩⟩

/-- Among the lines of equations, an event has the line of the equation that it is about. -/
theorem filter_sharedLine? {s : Settings} (h : s.enabled "unify" = true) (schemes : Bool)
    (x : Event) : (sharedLine? s schemes x).filter isBindLine = x.equation?.map bindLine := by
  cases x with
  | drawn _ | refreshed _ _ => rfl
  | bound q =>
    rw [sharedLine?, if_pos h, emit?_bindRecord h, Option.filter_some_pos (isBindLine_bindLine q)]
    rfl
  | generalized name σ =>
    rw [sharedLine?, Logger.emit?]
    split
    · split
      · exact Option.filter_some_neg (by simp [isBindLine_generalizeRecord])
      · rfl
    · rfl

/-- **The lines of equations** that the shared logger has written are those of the equations among
the events, in order. -/
theorem filter_isBindLine {s : Settings} (h : s.enabled "unify" = true) (custom : Option Logger)
    (events : List Event) :
    (traceLines s custom events).shared.filter isBindLine =
      (equationsOf events).map bindLine := by
  simp only [traceLines, equationsOf, List.filter_filterMap, List.map_filterMap,
    filter_sharedLine? h]

end Log

/-! ### Passes -/

namespace Context

variable {ctx : Context} {mode : Mode} {env : Env} {root : Expr}

/-- The events of a pass that ends well tell its substitution. -/
theorem equationsOf_trace_of_inferred {T : Ty}
    (h : (ctx.pass mode env root).verdict = .inferred T) :
    equationsOf (ctx.pass mode env root).trace = (ctx.pass mode env root).context.subst := by
  cases hroot : root.isAbsent with
  | true =>
    rw [pass_of_isAbsent hroot] at h
    cases h
  | false =>
    obtain ⟨g, given, -, heq⟩ := exists_conclude hroot h (by simp)
    have hstart : (State.mk env [] g []).Logged 0 := ⟨Nat.zero_le _, rfl⟩
    have hrestores := infer_restores State.scoped_logged root hstart
    rw [heq] at h ⊢
    rw [Outcome.Restores] at hrestores
    cases hr : (LetPoly.infer root ⟨env, [], g, []⟩).result with
    | ok t =>
      rw [hr] at hrestores
      rw [trace_conclude, context_conclude, subst_record]
      exact hrestores.equations
    | error f =>
      simp only [conclude, hr] at h
      cases h

/-- The events of a pass over a tree that fails for another reason than types that cannot be made
alike tell its substitution. -/
theorem equationsOf_trace_of_other (hroot : root.isAbsent = false) {err : InferError}
    (h : (ctx.pass mode env root).verdict = .failed err) (hother : ∀ e, err ≠ .type e) :
    equationsOf (ctx.pass mode env root).trace = (ctx.pass mode env root).context.subst := by
  obtain ⟨g, f, -, hr, rfl, hcontext, htrace⟩ := exists_error_of_failed hroot h
  rcases equationsOf_trace_of_failed rfl hr with ⟨-, heq⟩ | ⟨e, p, _, _, _, _, _, rfl, -⟩
  · rw [hcontext, htrace, subst_record, heq]
  · exact absurd rfl (hother e)

/-- The events of a pass in which types cannot be made alike tell its substitution and the equations
that the step found which failed, at the node that is to blame. -/
theorem equationsOf_trace_of_type {err : TypeError}
    (h : (ctx.pass mode env root).verdict = .failed (.type err)) :
    let S := (ctx.pass mode env root).context.subst
    ∃ g p n c st₁ a b st₂, ctx.passSupply env root = .ok g ∧
      (ctx.pass mode env root).context.invalid = some ⟨p, n⟩ ∧
      Visits root ⟨env, [], g, []⟩ p c st₁ ∧ (c.plan st₁).Takes (.unify a b) st₂ ∧ st₂.subst = S ∧
      (solve [⟨a.apply S, b.apply S⟩]).failure = some err ∧
      equationsOf (ctx.pass mode env root).trace =
        S ++ (solve [⟨a.apply S, b.apply S⟩]).solved := by
  cases hroot : root.isAbsent with
  | true =>
    rw [pass_of_isAbsent hroot] at h
    cases h
  | false =>
    obtain ⟨g, f, hg, hr, hf, hcontext, htrace⟩ := exists_error_of_failed hroot h
    simp only [hcontext, htrace, subst_record]
    rcases equationsOf_trace_of_failed rfl hr with
      ⟨hother, -⟩ | ⟨e, p, c, st₁, a, b, st₂, rfl, hv, htakes, hsubst, hfailure, heq⟩
    · exact absurd hf (hother err)
    · obtain rfl := InferError.type.inj hf
      obtain ⟨n, hn, -⟩ := (infer_fills root ⟨env, [], g, []⟩).at? hv.at?
      rw [hsubst] at hfailure heq
      refine ⟨g, p, n, c, st₁, a, b, st₂, hg, ?_, hv, htakes, hsubst, hfailure, heq⟩
      simp only [record, hr, Option.bind_some, hn, Option.map_some]

/-- **The log shows the substitution.** While debugging is on for unification, the lines of
equations that a pass sends to the shared logger are, in order, those of its substitution, if it
ends well or fails for another reason than types that cannot be made alike. If that is the reason,
the pass failed in one step at the node that is to blame, and the lines go on with the equations
that this step found. If there is no tree, nothing is logged and the context stays as it is. -/
theorem logged_of_pass (ctx : Context) (mode : Mode) (env : Env) (root : Expr) (s : Log.Settings)
    (custom : Option Log.Logger) (hlevel : s.level ≤ Log.Level.debug)
    (hsection : ∃ name ∈ s.sections, name.toList <+: "unify".toList) :
    let pass := ctx.pass mode env root
    let S := pass.context.subst
    let lines := (Log.traceLines s custom pass.trace).shared.filter Log.isBindLine
    (∀ T, pass.verdict = .inferred T → lines = S.map Log.bindLine) ∧
    (root.isAbsent = true → lines = [] ∧ pass.context = ctx) ∧
    (root.isAbsent = false → ∀ err, pass.verdict = .failed err → (∀ e, err ≠ .type e) →
      lines = S.map Log.bindLine) ∧
    ∀ err, pass.verdict = .failed (.type err) →
      ∃ g p n c st₁ a b st₂, ctx.passSupply env root = .ok g ∧
        pass.context.invalid = some ⟨p, n⟩ ∧ Visits root ⟨env, [], g, []⟩ p c st₁ ∧
        (c.plan st₁).Takes (.unify a b) st₂ ∧ st₂.subst = S ∧
        (solve [⟨a.apply S, b.apply S⟩]).failure = some err ∧
        lines = (S ++ (solve [⟨a.apply S, b.apply S⟩]).solved).map Log.bindLine := by
  intro pass S lines
  have henabled : s.enabled "unify" = true :=
    Log.Settings.enabled_iff.2 ⟨hlevel, Log.Settings.allows_iff.2 hsection⟩
  have hlines : lines = (equationsOf pass.trace).map Log.bindLine :=
    Log.filter_isBindLine henabled custom pass.trace
  rw [hlines]
  refine ⟨fun T hT => ?_, fun hroot => ?_, fun hroot err herr hother => ?_, fun err herr => ?_⟩
  · rw [equationsOf_trace_of_inferred hT]
  · have hpass : pass = ⟨ctx, root, root, .failed .empty, []⟩ := pass_of_isAbsent hroot ctx mode env
    rw [hpass]
    exact ⟨rfl, rfl⟩
  · rw [equationsOf_trace_of_other hroot herr hother]
  · obtain ⟨g, p, n, c, st₁, a, b, st₂, hg, hinvalid, hv, htakes, hsubst, hfailure, heq⟩ :=
      equationsOf_trace_of_type herr
    exact ⟨g, p, n, c, st₁, a, b, st₂, hg, hinvalid, hv, htakes, hsubst, hfailure,
      congrArg (List.map Log.bindLine) heq⟩

/-- After a name has been given a type, two tuples are compared that agree in their last components
only. -/
def clash : Expr :=
  .letIn ⟨"a", .absent⟩ (.int 1)
    (.letRec ⟨"f", .absent⟩ [⟨"x", .absent⟩]
      (.eq (.tuple [.bool true, .var "x"]) (.tuple [.int 1, .var "a"])) .unit)

/-- The second equation is found by the step that fails, and only the log shows it. -/
theorem logged_of_pass_clash :
    let pass := (fresh none).pass .onCopy [] clash
    let lines := (Log.traceLines ⟨Log.Level.debug, ["infer", "uni"]⟩ none pass.trace).shared.filter
      Log.isBindLine
    pass.verdict = .failed (.type ⟨.mismatch, .bool, .int⟩) ∧ pass.context.subst = [⟨0, .int⟩] ∧
    lines = ["level=DEBUG msg=bind section=unify var='_0 type=int",
      "level=DEBUG msg=bind section=unify var='_2 type=int"] ∧
    ∃ a b, lines = (pass.context.subst ++ (solve [⟨a, b⟩]).solved).map Log.bindLine := by
  intro pass lines
  have hverdict : pass.verdict = .failed (.type ⟨.mismatch, .bool, .int⟩) := by
    cbv
  obtain ⟨-, -, -, htype⟩ := logged_of_pass (fresh none) .onCopy [] clash
    ⟨Log.Level.debug, ["infer", "uni"]⟩ none (by decide) ⟨"uni", by decide, by decide⟩
  obtain ⟨g, p, n, c, st₁, a, b, st₂, -, -, -, -, -, -, hlines⟩ := htype _ hverdict
  have htrace : equationsOf pass.trace = [⟨0, .int⟩, ⟨2, .int⟩] := by
    cbv
  refine ⟨hverdict, by cbv, ?_, _, _, hlines⟩
  rw [show lines = _ from Log.filter_isBindLine (by decide) none pass.trace, htrace]
  decide

end Context

end LetPoly
