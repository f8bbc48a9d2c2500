import LetPoly.Proofs.Plans
import LetPoly.Proofs.Scoping

/-!
# The entries of the environment

Inference works on one environment, which it adds names to and takes names off, and all entries of
which it brings up to date with the substitution from time to time. A run that fails leaves names
behind, and the nodes above it go on to take off as many as they have added themselves, whichever
these are by then. All the same the entries that are there when a node is looked at stay there in
the meantime, in order and with the same meaning, and those that are taken off lie above them.

## Main definitions

* `Entry.Renewed`, `Env.Renewed`: an entry and an environment as they may look later on.
* `State.Preserves`: the entries of an environment are there, below some others.

## Main results

* `Scheme.apply_apply_of_isPrefix`: a scheme that has been brought up to date means the same.
* `State.scoped_holds`: how the entries fare in each step.
* `preserved_of_visits`: no step of a run touches the entries that it began with.
-/

namespace LetPoly

/-! ### Entries later on -/

/-- The entry `y` is what has become of the entry `x` by the time the substitution is `S`. It may
have been brought up to date with the substitution as it was some time before. -/
structure Entry.Renewed (S : Subst) (x y : Entry) : Prop where
  name : y.name = x.name
  bound : y.scheme.bound = x.scheme.bound
  scheme : y.scheme = x.scheme ∨ ∃ P, P <+: S ∧ y.scheme = x.scheme.apply P
  /-- Under the substitution both schemes are the same. -/
  body : (y.scheme.apply S).body = (x.scheme.apply S).body

/-- The entries of the second environment are what has become of those of the first. -/
def Env.Renewed (S : Subst) (env env' : Env) : Prop :=
  List.Forall₂ (Entry.Renewed S) env env'

/-- With at least `n` entries above them, the entries of `base` are in the environment of the state,
as they look by then. -/
def State.Preserves (base : Env) (n : Nat) (st : State) : Prop :=
  ∃ xs env, st.env = xs ++ env ∧ n ≤ xs.length ∧ base.Renewed st.subst env

theorem Subst.Triangular.of_isPrefix {P S : Subst} (hS : S.Triangular) (hP : P <+: S) :
    P.Triangular :=
  ⟨fun q hq => hS.not_mem_self q (hP.mem hq), hS.later.sublist hP.sublist⟩

/-- A scheme that has been brought up to date with an earlier substitution is the same under the
current one. -/
theorem Scheme.apply_apply_of_isPrefix {P S : Subst} (hS : S.Triangular) (hP : P <+: S)
    (σ : Scheme) : (σ.apply P).apply S = σ.apply S := by
  have htriangular := (hS.of_isPrefix hP).filter fun q => !σ.bound.contains q.var
  obtain ⟨D, rfl⟩ := hP
  simp only [Scheme.apply, List.filter_append, htriangular.apply_apply]

namespace Entry

variable {S S' : Subst} {x y : Entry}

theorem renewed_refl (S : Subst) (x : Entry) : x.Renewed S x :=
  ⟨rfl, rfl, .inl rfl, rfl⟩

theorem renewed_apply (hS : S.Triangular) {P : Subst} (hP : P <+: S) (x : Entry) :
    x.Renewed S { x with scheme := x.scheme.apply P } :=
  ⟨rfl, rfl, .inr ⟨P, hP, rfl⟩, congrArg Scheme.body (Scheme.apply_apply_of_isPrefix hS hP _)⟩

/-- As the substitution grows, an entry stays what it is. -/
theorem Renewed.later (h : x.Renewed S y) (hS : S'.Triangular) (hp : S <+: S') :
    x.Renewed S' y := by
  refine ⟨h.name, h.bound, h.scheme.imp_right fun ⟨P, hP, heq⟩ => ⟨P, hP.trans hp, heq⟩, ?_⟩
  rcases h.scheme with heq | ⟨P, hP, heq⟩
  · rw [heq]
  · rw [heq, Scheme.apply_apply_of_isPrefix hS (hP.trans hp)]

/-- Bringing an entry up to date a second time is bringing the first one up to date. -/
theorem Renewed.refresh (h : x.Renewed S y) (hS : S.Triangular) :
    x.Renewed S { y with scheme := y.scheme.apply S } := by
  have heq : y.scheme.apply S = x.scheme.apply S := by
    rcases h.scheme with heq | ⟨P, hP, heq⟩
    · rw [heq]
    · rw [heq, Scheme.apply_apply_of_isPrefix hS hP]
  have hrenewed := x.renewed_apply hS (List.prefix_refl S)
  rw [heq]
  exact ⟨h.name, hrenewed.bound, hrenewed.scheme, hrenewed.body⟩

end Entry

theorem Env.renewed_refl (S : Subst) (env : Env) : env.Renewed S env :=
  List.forall₂_same.2 fun x _ => x.renewed_refl S

/-! ### Steps -/

namespace State

/-- The environment has the entries of `base`, as they look by now, below `n` others. -/
structure Holds (base : Env) (n : Nat) (st : State) : Prop where
  triangular : st.subst.Triangular
  entries : ∃ xs env, st.env = xs ++ env ∧ xs.length = n ∧ base.Renewed st.subst env

variable {base : Env} {n : Nat} {st : State}

theorem holds_self (h : st.subst.Triangular) : st.Holds st.env 0 :=
  ⟨h, [], st.env, rfl, rfl, st.env.renewed_refl st.subst⟩

theorem Holds.renewed (h : st.Holds base 0) : base.Renewed st.subst st.env := by
  obtain ⟨xs, env, henv, hlen, hrenewed⟩ := h.entries
  rw [henv, List.eq_nil_of_length_eq_zero hlen]
  exact hrenewed

theorem Holds.preserves (h : st.Holds base n) {k : Nat} (hk : k ≤ n) : st.Preserves base k := by
  obtain ⟨xs, env, henv, hlen, hrenewed⟩ := h.entries
  exact ⟨xs, env, henv, hlen.symm ▸ hk, hrenewed⟩

/-- The entries do not depend on the events. -/
theorem Above.preserves (h : st.Above (Holds base) n) : st.Preserves base n := by
  obtain ⟨m, st₀, hm, hholds, heq⟩ := h
  rw [heq]
  exact hholds.preserves hm

theorem Holds.push (h : st.Holds base n) {st' : State} (x : Entry) (henv : st'.env = x :: st.env)
    (hsubst : st'.subst = st.subst) : st'.Holds base (n + 1) := by
  obtain ⟨xs, env, heq, hlen, hrenewed⟩ := h.entries
  refine ⟨hsubst ▸ h.triangular, x :: xs, env, ?_, congrArg (· + 1) hlen, hsubst ▸ hrenewed⟩
  rw [henv, heq, List.cons_append]

/-- **How entries fare**: a step that adds a name puts it above them, a step that takes off names
that have been added leaves them, and every other step leaves them or brings them up to date. -/
theorem scoped_holds (base : Env) : Scoped (Holds base) where
  freshVar h := ⟨h.triangular, h.entries⟩
  instantiate _ h := ⟨h.triangular, h.entries⟩
  unify {n st st' a b} h hu := by
    have htriangular := triangular_unify h.triangular a b
    rw [hu] at htriangular
    obtain ⟨xs, env, heq, hlen, hrenewed⟩ := h.entries
    obtain ⟨-, -, -, henv, -⟩ := unify_eq hu
    exact ⟨htriangular, xs, env, henv.trans heq, hlen,
      hrenewed.imp fun _ _ hxy => hxy.later htriangular (subst_isPrefix_unify hu)⟩
  pushMono _ _ h := h.push _ rfl rfl
  leave {n k st} h := by
    -- all names that are taken off are among the `n + k` above the entries
    obtain ⟨xs, env, heq, hlen, hrenewed⟩ := h.entries
    have hk : k ≤ xs.length := hlen ▸ Nat.le_add_left k n
    refine ⟨_, leave?_eq_some.2 ⟨?_, rfl⟩, h.triangular, xs.drop k, env, ?_, ?_, hrenewed⟩
    · rw [heq, List.length_append]
      exact Nat.le_add_right_of_le hk
    · simp only [heq, List.drop_append_of_le_length hk]
    · rw [List.length_drop, hlen, Nat.add_sub_cancel]
  refresh {n st} h := by
    obtain ⟨xs, env, heq, hlen, hrenewed⟩ := h.entries
    refine ⟨h.triangular, Env.apply xs st.subst, Env.apply env st.subst, ?_, ?_, ?_⟩
    · rw [refresh, heq, Env.apply, List.map_append]
      rfl
    · rw [Env.apply, List.length_map, hlen]
    · exact List.forall₂_map_right_iff.2 (hrenewed.imp fun _ _ hxy => hxy.refresh h.triangular)
  bind _ h := h.push _ rfl rfl

end State

/-! ### Runs -/

/-- The substitution is triangular at all nodes that a run comes to. -/
theorem Visits.triangular {e c : Expr} {st st' : State} {p : Expr.Path} (hv : Visits e st p c st')
    (h : st.subst.Triangular) : st'.subst.Triangular := by
  obtain ⟨m, -, hholds⟩ := hv.exists_scoped (State.scoped_holds st.env) (State.holds_self h)
  exact hholds.triangular

/-- No pass fails because a scope is left that was not entered. -/
theorem Context.verdict_ne_scopeUnderflow (ctx : Context) (mode : Mode) (env : Env) (root : Expr) :
    (ctx.pass mode env root).verdict ≠ .failed .scopeUnderflow := by
  intro h
  obtain ⟨g, f, hr, hf, -⟩ := exists_failed_of_failed h (by decide)
  exact error_ne_scopeUnderflow root hr hf

/-- **No step of a run touches the entries that it began with.** Take any call that inference makes
on a node `e` in the course of a pass. If it ends well, the environment has the same entries as
before, in order, each with the same name and the same quantified ids, unchanged or brought up to
date with what the substitution has been at some time, and so the same under the current one. If it
fails, the environment has these entries below those that are left behind, and the reason is not
that there was no entry to take off. Whenever in the course of the call names are taken off, there
are as many above the entries that the call began with. -/
theorem preserved_of_visits {env : Env} {g : Supply} {root e : Expr} {p : Expr.Path} {st : State}
    (hv : Visits root ⟨env, [], g, []⟩ p e st) :
    (∀ t, (infer e st).result = .ok t →
      st.env.Renewed (infer e st).state.subst (infer e st).state.env) ∧
    (∀ f, (infer e st).result = .error f →
      (infer e st).state.Preserves st.env 0 ∧ f.error ≠ .scopeUnderflow) ∧
    (∀ q c st₁, Visits e st q c st₁ → st₁.Preserves st.env 0 ∧
      ∀ n st₂, (c.plan st₁).Takes (.leave n) st₂ → st₂.Preserves st.env n) ∧
    ∀ ctx mode, (Context.pass ctx mode env root).verdict ≠ .failed .scopeUnderflow := by
  have hK := State.scoped_holds st.env
  have hself : st.Holds st.env 0 := State.holds_self (hv.triangular Subst.triangular_nil)
  have hrestores := infer_restores hK e hself
  rw [Outcome.Restores] at hrestores
  refine ⟨fun t ht => ?_, fun f hf => ?_, fun q c st₁ hc => ?_,
    fun ctx mode => ctx.verdict_ne_scopeUnderflow mode env root⟩
  · rw [ht] at hrestores
    exact hrestores.renewed
  · rw [hf] at hrestores
    exact ⟨hrestores.2.preserves, hrestores.1⟩
  · obtain ⟨m, -, hholds⟩ := hc.exists_scoped hK hself
    refine ⟨hholds.preserves (Nat.zero_le m), fun n st₂ htakes => ?_⟩
    have hsafe := (c.keeps_plan hK hholds).safe hK htakes
    exact (State.Above.mono hsafe (Nat.le_add_left n m)).preserves

/-- In the scope of an argument `a`, the value of a name binds a variable of the environment, and a
function in the scope of that name does not fit. -/
def brokenScope : Expr :=
  .letIn ⟨"b", .absent⟩
    (.eq (.app (.var "pair") [.var "a"] .absent) (.tuple [.int 1, .bool true]))
    (.letRec ⟨"g", .absent⟩ [⟨"x", .absent⟩] (.not (.var "a")) (.var "b"))

/-- The function stays behind with its argument, which is taken off in place of `b`. The entries
that were there before are up to date. -/
theorem preserved_of_visits_brokenScope :
    ∃ st, Visits (.letRec ⟨"f", .absent⟩ [⟨"a", .absent⟩] brokenScope .unit)
        ⟨pairEnv, [], ⟨3⟩, []⟩ [0] brokenScope st ∧
      st.env = ⟨"a", .mono (.var 4)⟩ :: ⟨"f", .mono (.var 3)⟩ :: pairEnv ∧
      (infer brokenScope st).result = .error ⟨.type ⟨.mismatch, .bool, .int⟩, some [1, 0]⟩ ∧
      (infer brokenScope st).state.env =
        [⟨"g", .mono (.var 8)⟩, ⟨"b", .mono .bool⟩, ⟨"a", .mono .int⟩, ⟨"f", .mono (.var 3)⟩,
          ⟨"pair", ⟨VarSet.ofList [0], .arrow [.var 0] (.tuple [.var 0, .bool])⟩⟩] ∧
      (infer brokenScope st).state.Preserves st.env 0 := by
  have hv : Visits (.letRec ⟨"f", .absent⟩ [⟨"a", .absent⟩] brokenScope .unit)
      ⟨pairEnv, [], ⟨3⟩, []⟩ [0] brokenScope
      ⟨⟨"a", .mono (.var 4)⟩ :: ⟨"f", .mono (.var 3)⟩ :: pairEnv, [], ⟨5⟩, [.drawn 3, .drawn 4]⟩ :=
    .child .look .here
  refine ⟨_, hv, rfl, ?_⟩
  have hfailed : (infer brokenScope ⟨⟨"a", .mono (.var 4)⟩ :: ⟨"f", .mono (.var 3)⟩ :: pairEnv, [],
      ⟨5⟩, [.drawn 3, .drawn 4]⟩).result =
        .error ⟨.type ⟨.mismatch, .bool, .int⟩, some [1, 0]⟩ := by
    cbv
  exact ⟨hfailed, by cbv, ((preserved_of_visits hv).2.1 _ hfailed).1⟩

end LetPoly
