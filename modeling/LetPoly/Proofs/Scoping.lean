import LetPoly.Proofs.Blame
import LetPoly.Proofs.Passes

/-!
# Scopes

A name is in scope at a place if a node above that place puts it there. A plain binding puts its
name in scope in its body only; a recursive function is in scope in its own body and in the rest,
its arguments in its own body only; the names of a tuple are in scope in the value as well as in the
body. That is said here of the tree alone. Inference keeps one stack of names for all of this, which
it adds to and takes from as it goes along the tree, and the stack always holds what is in scope at
the node that it looks at, on top of what was there at the start. So inference complains about a
name exactly where the tree uses one that it does not provide.

## Main definitions

* `Expr.scope`, `Expr.scopeAt`: the names that a node puts in scope in one of its children, and
  those that are in scope at a place.
* `Expr.Misses`: a variable whose name nobody provides.
* `Expr.Scoped`: the names of all variables are provided.
* `Outcome.Resolves`: the names on the stack after a step, and where it misses a name.

## Main results

* `infer_resolves`: inference that ends well leaves the stack of names as it was, and misses no
  name of the tree; inference that misses a name does so at a variable whose name nobody provides.
* `Context.scoped_of_pass`: the same of passes.
-/

namespace LetPoly

open Outcome

/-! ### Names in scope -/

/-- The names of an environment, the most recent one first. -/
def Env.names (env : Env) : List String :=
  env.map (·.name)

theorem Env.lookup_eq_none {env : Env} {x : String} : env.lookup x = none ↔ x ∉ env.names := by
  simp [lookup, names]

namespace Expr

/-- The names that a node puts in scope in its `i`-th child, the most recent one first. -/
def scope : Expr → Nat → List String
  | .letIn b _ _, 1 => [b.name]
  | .letRec fn args _ _, 0 => (args.map (·.name)).reverse ++ [fn.name]
  | .letRec fn _ _ _, 1 => [fn.name]
  | .letTuple vars _ _, _ => (vars.map (·.name)).reverse
  | _, _ => []

/-- The names that the nodes on the way to a place put in scope there, the most recent one first. -/
def scopeAt : Path → Expr → List String
  | [], _ => []
  | i :: p, e =>
    match e.children[i]? with
    | some c => c.scopeAt p ++ e.scope i
    | none => []

/-- The node at the place `p` is the variable `x`, and neither the nodes above it nor `names`
provide that name. -/
structure Misses (e : Expr) (names : List String) (x : String) (p : Path) : Prop where
  var : e.at? p = some (.var x)
  scope : x ∉ e.scopeAt p
  names : x ∉ names

/-- The names of all variables are in scope or among `names`. -/
def Scoped (e : Expr) (names : List String) : Prop :=
  ∀ p x, e.at? p = some (.var x) → x ∈ e.scopeAt p ∨ x ∈ names

variable {e c : Expr} {names : List String}

theorem scoped_iff : e.Scoped names ↔ ∀ x p, ¬ e.Misses names x p := by
  refine ⟨fun h x p hm => ?_, fun h p x hx => ?_⟩
  · exact (h p x hm.var).elim hm.scope hm.names
  · by_contra hno
    rw [not_or] at hno
    exact h x p ⟨hx, hno.1, hno.2⟩

/-- What a child misses that is looked at with the names of its scope, the parent misses. -/
theorem misses_cons {i : Nat} (hc : e.children[i]? = some c) {x : String} {p : Path} :
    e.Misses names x (i :: p) ↔ c.Misses (e.scope i ++ names) x p := by
  have hat : e.at? (i :: p) = c.at? p := by rw [at?, hc, Option.bind_some]
  have hscope : e.scopeAt (i :: p) = c.scopeAt p ++ e.scope i := by rw [scopeAt, hc]
  constructor
  · rintro ⟨hx, hs, hn⟩
    rw [hscope, List.mem_append, not_or] at hs
    exact ⟨hat ▸ hx, hs.1, by simp [hs.2, hn]⟩
  · rintro ⟨hx, hs, hn⟩
    rw [List.mem_append, not_or] at hn
    exact ⟨hat.trans hx, by rw [hscope]; simp [hs, hn.1], hn.2⟩

/-- A tree is scoped if its children are, unless it is a variable itself. -/
theorem scoped_of_children (hvar : ∀ x, e ≠ .var x)
    (h : ∀ (i : Nat) (c : Expr), e.children[i]? = some c → c.Scoped (e.scope i ++ names)) :
    e.Scoped names := by
  rw [scoped_iff]
  intro x p hm
  cases p with
  | nil => exact hvar x (Option.some.inj hm.var)
  | cons i p =>
    obtain ⟨c, hc, -⟩ := Option.bind_eq_some_iff.1 hm.var
    exact scoped_iff.1 (h i c hc) x p ((misses_cons hc).1 hm)

/-- A node that binds nothing. -/
theorem scoped_of_forall (hvar : ∀ x, e ≠ .var x) (hscope : ∀ i, e.scope i = [])
    (h : ∀ c ∈ e.children, c.Scoped names) : e.Scoped names := by
  refine scoped_of_children hvar fun i c hc => ?_
  rw [hscope, List.nil_append]
  exact h c (List.mem_of_getElem? hc)

/-- A node with two children in which it may bind names. -/
theorem scoped_of_pair {a b : Expr} (hc : e.children = [a, b])
    (ha : a.Scoped (e.scope 0 ++ names)) (hb : b.Scoped (e.scope 1 ++ names)) :
    e.Scoped names := by
  refine scoped_of_children (fun x hx => ?_) fun i c hi => ?_
  · rw [hx] at hc
    cases hc
  · rw [hc] at hi
    match i, hi with
    | 0, rfl => exact ha
    | 1, rfl => exact hb

end Expr

/-! ### Names on the stack -/

namespace State

theorem names_declare (st : State) (b : Binding) :
    (st.declare b).2.env.names = st.env.names := by
  rw [declare]
  split <;> rfl

theorem name_declare (st : State) (b : Binding) : (st.declare b).1.name = b.name := by
  rw [declare]
  split <;> rfl

theorem names_enter (st : State) (bs : List Binding) :
    (st.enter bs).2.env.names = (bs.map (·.name)).reverse ++ st.env.names := by
  induction bs generalizing st with
  | nil => rfl
  | cons b bs ih =>
    have hpush : ((st.declare b).2.pushMono (st.declare b).1.name
        (st.declare b).1.slot).env.names = b.name :: st.env.names :=
      congrArg₂ List.cons (st.name_declare b) (st.names_declare b)
    rw [enter, ih, hpush, List.map_cons, List.reverse_cons, List.append_assoc,
      List.singleton_append]

theorem map_name_enter (st : State) (bs : List Binding) :
    (st.enter bs).1.map (·.name) = bs.map (·.name) := by
  induction bs generalizing st with
  | nil => rfl
  | cons b bs ih => rw [enter, List.map_cons, List.map_cons, ih, name_declare]

theorem length_enter (st : State) (bs : List Binding) : (st.enter bs).1.length = bs.length := by
  simpa using congrArg List.length (st.map_name_enter bs)

theorem names_unify (st : State) (a b : Ty) : (st.unify a b).1.env.names = st.env.names := by
  rw [unify]
  split <;> rfl

theorem names_refresh (st : State) : st.refresh.env.names = st.env.names := by
  simp [refresh, Env.apply, Env.names]

theorem names_foldl_bind (bs : List Binding) (st : State) :
    (bs.foldl State.bind st).env.names = (bs.map (·.name)).reverse ++ st.env.names := by
  induction bs generalizing st with
  | nil => rfl
  | cons b bs ih =>
    have hbind : (st.bind b).env.names = b.name :: st.env.names := rfl
    rw [List.foldl_cons, ih, hbind, List.map_cons, List.reverse_cons, List.append_assoc,
      List.singleton_append]

/-- The scope of a recursive function and its arguments. -/
theorem names_enter_func {st : State} {names : List String} (h : st.env.names = names)
    (fn : Binding) (args : List Binding) :
    (((st.declare fn).2.pushMono (st.declare fn).1.name (st.declare fn).1.slot).enter
      args).2.env.names = ((args.map (·.name)).reverse ++ [fn.name]) ++ names := by
  have hpush : ((st.declare fn).2.pushMono (st.declare fn).1.name
      (st.declare fn).1.slot).env.names = fn.name :: names :=
    congrArg₂ List.cons (st.name_declare fn) ((st.names_declare fn).trans h)
  rw [names_enter, hpush, List.append_assoc, List.singleton_append]

/-- The scope of names with generalized types. -/
theorem names_rest {st : State} {names xs : List String} (h : st.env.names = names)
    {bs : List Binding} (hbs : bs.map (·.name) = xs) :
    ((bs.map st.refresh.resolve).foldl State.bind st.refresh).env.names = xs.reverse ++ names := by
  rw [names_foldl_bind, names_refresh, h, ← hbs, List.map_map]
  rfl

/-- The names on top are those that are left behind with their scope. -/
theorem names_leave {st st' : State} {n : Nat} (hl : st.leave? n = some st')
    {scope names : List String} (hst : st.env.names = scope ++ names) (hn : scope.length = n) :
    st'.env.names = names := by
  obtain ⟨-, rfl⟩ := leave?_eq_some.1 hl
  rw [Env.names, List.map_drop, ← Env.names, hst, ← hn, List.drop_left]

end State

/-! ### Steps -/

/-- If a name is missing, then at a place that satisfies `M`. -/
def Failure.MissesAt (M : String → Expr.Path → Prop) (f : Failure) : Prop :=
  ∀ x, f.error = .unbound x → ∃ p, f.place = some p ∧ M x p

theorem Failure.MissesAt.under {e c : Expr} {i : Nat} {names names' : List String} {f : Failure}
    (hc : e.children[i]? = some c) (hnames : e.scope i ++ names = names')
    (h : f.MissesAt (c.Misses names')) : (f.under i).MissesAt (e.Misses names) := by
  subst hnames
  intro x hx
  obtain ⟨p, hp, hm⟩ := h x hx
  refine ⟨i :: p, ?_, (Expr.misses_cons hc).2 hm⟩
  rw [Failure.under, hp]
  rfl

namespace Outcome

variable {τ τ' ρ ρ' : Type} {names names' : List String} {G G' : Prop}
  {M M' : String → Expr.Path → Prop}

/-- A step that ends well leaves `names` on the stack, and then `G` holds. One that misses a name
does so at a place that satisfies `M`. -/
def Resolves (names : List String) (G : Prop) (M : String → Expr.Path → Prop) (o : Outcome τ ρ) :
    Prop :=
  match o.result with
  | .ok _ => o.state.env.names = names ∧ G
  | .error f => f.MissesAt M

theorem Resolves.andThen {o : Outcome τ ρ} (ho : o.Resolves names G M) {rebuild : τ → τ'}
    {blame : Failure → Failure} {next : τ → State → ρ → Outcome τ' ρ'}
    (hblame : ∀ f : Failure, f.MissesAt M → (blame f).MissesAt M')
    (hnext : ∀ a st v, st.env.names = names → G → (next a st v).Resolves names' G' M') :
    (o.andThen rebuild blame next).Resolves names' G' M' := by
  rw [Resolves] at ho
  rw [Outcome.andThen]
  split <;> rename_i hr <;> rw [hr] at ho
  · exact hblame _ ho
  · exact hnext _ _ _ ho.1 ho.2

/-- The names of a scope are taken off the stack again. -/
theorem Resolves.leaving {o : Outcome Expr Ty} {scope : List String}
    (ho : o.Resolves (scope ++ names) G M) {rebuild : Expr → Expr} {i n : Nat}
    (hn : scope.length = n) (hblame : ∀ f : Failure, f.MissesAt M → (f.under i).MissesAt M')
    (hG : G → G') : (o.leaving rebuild i n).Resolves names G' M' := by
  rw [Resolves] at ho
  rw [Outcome.leaving]
  split
  · intro x hx
    cases hx
  · rename_i st hl
    split <;> rename_i hr <;> rw [hr] at ho
    · exact hblame _ ho
    · exact ⟨State.names_leave hl ho.1 hn, hG ho.2⟩

section Steps

variable {st : State} {tree : Expr} {a b : Ty} {next : State → Outcome Expr Ty}

theorem resolves_unifyThen (hst : st.env.names = names)
    (hnext : ∀ st, st.env.names = names → (next st).Resolves names' G M) :
    (st.unifyThen tree a b next).Resolves names' G M := by
  have hnames := st.names_unify a b
  rw [State.unifyThen]
  split <;> rename_i heq <;> rw [heq] at hnames
  · intro x hx
    cases hx
  · exact hnext _ (hnames.trans hst)

theorem resolves_constrain {r : Ty} (hst : st.env.names = names) (hG : G) :
    (st.constrain tree a b r).Resolves names G M :=
  resolves_unifyThen hst fun _ h => ⟨h, hG⟩

theorem resolves_leaveThen {scope : List String} {n : Nat} (hst : st.env.names = scope ++ names)
    (hn : scope.length = n)
    (hnext : ∀ st, st.env.names = names → (next st).Resolves names' G M) :
    (st.leaveThen tree n next).Resolves names' G M := by
  rw [State.leaveThen]
  split
  · intro x hx
    cases hx
  · rename_i st' hl
    exact hnext _ (State.names_leave hl hst hn)

end Steps

end Outcome

/-! ### Runs -/

section Runs

open LetPoly.Expr (scoped_of_forall scoped_of_pair)

mutual

/-- **The stack holds the names in scope**, at every node. So inference that ends well has found all
names of the tree and leaves the stack as it was, and inference that misses a name does so at a
variable whose name is not provided. -/
theorem infer_resolves : (e : Expr) → {names : List String} → {st : State} →
    st.env.names = names → (infer e st).Resolves names (e.Scoped names) (e.Misses names)
  | .absent, _, _, _ => fun _ hx => nomatch hx
  | .unit, _, _, h | .bool _, _, _, h | .int _, _, _, h =>
    ⟨h, scoped_of_forall nofun (fun _ => rfl) nofun⟩
  | .var x, names, st, h => by
    rw [infer]
    split <;> rename_i hlookup
    · intro y hy
      obtain rfl := InferError.unbound.inj hy
      exact ⟨[], rfl, rfl, List.not_mem_nil, h ▸ Env.lookup_eq_none.1 hlookup⟩
    · refine ⟨h, fun p y hy => .inr ?_⟩
      cases p with
      | nil =>
        obtain rfl := Expr.var.inj (Option.some.inj hy)
        by_contra hno
        rw [Env.lookup_eq_none.2 (h ▸ hno)] at hlookup
        cases hlookup
      | cons i p => cases hy
  | .not e, _, _, h | .neg e, _, _, h =>
    (infer_resolves e h).andThen (fun _ => .under rfl rfl) fun _ _ _ h he =>
      resolves_constrain h
        (scoped_of_forall nofun (fun _ => rfl) (List.forall_mem_singleton.2 he))
  | .arith _ l r, _, _, h =>
    (infer_resolves l h).andThen (fun _ => .under rfl rfl) fun _ _ _ h hl =>
      (infer_resolves r h).andThen (fun _ => .under rfl rfl) fun _ _ _ h hr =>
        resolves_unifyThen h fun _ h => resolves_constrain h (scoped_of_pair rfl hl hr)
  | .eq l r, _, _, h =>
    (infer_resolves l h).andThen (fun _ => .under rfl rfl) fun _ _ _ h hl =>
      (infer_resolves r h).andThen (fun _ => .under rfl rfl) fun _ _ _ h hr =>
        resolves_constrain h (scoped_of_pair rfl hl hr)
  | .le l r, _, _, h =>
    (infer_resolves l h).andThen (fun _ => .under rfl rfl) fun _ _ _ h hl =>
      resolves_unifyThen h fun _ h =>
        (infer_resolves r h).andThen (fun _ => .under rfl rfl) fun _ _ _ h hr =>
          resolves_constrain h (scoped_of_pair rfl hl hr)
  | .ite c e₁ e₂, _, _, h =>
    (infer_resolves c h).andThen (fun _ => .under rfl rfl) fun _ _ _ h hc =>
      resolves_unifyThen h fun _ h =>
        (infer_resolves e₁ h).andThen (fun _ => .under rfl rfl) fun _ _ _ h h₁ =>
          (infer_resolves e₂ h).andThen (fun _ => .under rfl rfl) fun _ _ _ h h₂ =>
            resolves_unifyThen h fun _ h => ⟨h, scoped_of_forall nofun (fun _ => rfl) <|
              List.forall_mem_cons.2 ⟨hc, List.forall_mem_cons.2
                ⟨h₁, List.forall_mem_singleton.2 h₂⟩⟩⟩
  | .letIn b v e, _, st, h =>
    (infer_resolves v ((st.names_declare b).trans h)).andThen (fun _ => .under rfl rfl)
      fun _ _ _ h hv => resolves_unifyThen h fun _ h =>
        have hname : [(st.declare b).1].map (·.name) = [b.name] := by
          rw [List.map_singleton, st.name_declare]
        (infer_resolves e (State.names_rest h hname)).leaving rfl (fun _ => .under rfl rfl)
          fun he => scoped_of_pair rfl hv he
  | .letRec fn args body rest, _, st, h =>
    (infer_resolves body (State.names_enter_func h fn args)).andThen (fun _ => .under rfl rfl)
      fun _ _ _ h hbody => resolves_leaveThen h (by simp [State.length_enter]) fun _ h =>
        resolves_unifyThen h fun _ h =>
          have hname : [(st.declare fn).1].map (·.name) = [fn.name] := by
            rw [List.map_singleton, st.name_declare]
          (infer_resolves rest (State.names_rest h hname)).leaving rfl (fun _ => .under rfl rfl)
            fun hrest => scoped_of_pair rfl hbody hrest
  | .app fn args t, _, _, h =>
    (infer_resolves fn h).andThen (fun _ => .under rfl rfl) fun _ _ _ h hfn =>
      (inferAll_resolves (e := .app fn args t) [fn] args rfl nofun (fun _ => rfl)
        (List.forall_mem_singleton.2 hfn) h).andThen (fun _ hf => hf) fun _ _ _ h he =>
          resolves_unifyThen h fun _ h => ⟨h, he⟩
  | .tuple es, _, _, h =>
    (inferAll_resolves (e := .tuple es) [] es rfl nofun (fun _ => rfl) nofun h).andThen
      (fun _ hf => hf) fun _ _ _ h he => ⟨h, he⟩
  | .letTuple vars v e, _, st, h =>
    have henter := (st.names_enter vars).trans (congrArg ((vars.map (·.name)).reverse ++ ·) h)
    (infer_resolves v henter).andThen (fun _ => .under rfl rfl)
      fun _ _ _ h hv => resolves_leaveThen h (by simp [State.length_enter]) fun _ h =>
        resolves_unifyThen h fun _ h =>
          (infer_resolves e (State.names_rest h (st.map_name_enter vars))).leaving
            (by simp [State.length_enter]) (fun _ => .under rfl rfl)
            fun he => scoped_of_pair rfl hv he
  | .foreign _, _, _, _ => fun _ hx => nomatch hx

/-- The children before those that are looked at are `cs`, and they are scoped. -/
theorem inferAll_resolves (cs : List Expr) : (es : List Expr) → {e : Expr} →
    e.children = cs ++ es → (∀ x, e ≠ .var x) → (∀ i, e.scope i = []) → {names : List String} →
      (∀ c ∈ cs, c.Scoped names) → {st : State} → st.env.names = names →
        (inferAll cs.length es st).Resolves names (e.Scoped names) (e.Misses names)
  | [], _, hes, hvar, hscope, _, hcs, _, h =>
    ⟨h, scoped_of_forall hvar hscope (by rwa [hes, List.append_nil])⟩
  | c :: es, e, hes, hvar, hscope, names, hcs, _, h =>
    have hc : e.children[cs.length]? = some c := by
      rw [hes, List.getElem?_append_right (Nat.le_refl _), Nat.sub_self]
      rfl
    have hnames : e.scope cs.length ++ names = names := by rw [hscope, List.nil_append]
    (infer_resolves c h).andThen (fun _ => .under hc hnames) fun _ _ _ h hscoped => by
      have hcs' : ∀ c' ∈ cs ++ [c], c'.Scoped names :=
        List.forall_mem_append.2 ⟨hcs, List.forall_mem_singleton.2 hscoped⟩
      have hrest := inferAll_resolves (cs ++ [c]) es (by rw [hes, List.append_assoc]; rfl) hvar
        hscope hcs' h
      rw [List.length_append] at hrest
      exact hrest.andThen (fun _ hf => hf) fun _ _ _ h he => ⟨h, he⟩

end

end Runs

/-! ### Passes -/

namespace Context

/-- A pass over a tree that is there fails if inference does, and records the error and the node to
blame. -/
theorem exists_failed_of_failed {ctx : Context} {mode : Mode} {env : Env} {root : Expr}
    {err : InferError} (h : (ctx.pass mode env root).verdict = .failed err) (hne : err ≠ .empty) :
    ∃ g f, (LetPoly.infer root ⟨env, [], g, []⟩).result = .error f ∧ f.error = err ∧
      (ctx.pass mode env root).context.error = some err ∧
      (ctx.pass mode env root).context.invalid = f.place.bind fun p =>
        ((LetPoly.infer root ⟨env, [], g, []⟩).tree.at? p).map (.mk p) := by
  cases hroot : root.isAbsent with
  | true =>
    rw [pass_of_isAbsent hroot] at h
    exact absurd (Verdict.failed.inj h).symm hne
  | false =>
    obtain ⟨g, f, -, hr, rfl, hcontext, -⟩ := exists_error_of_failed hroot h
    rw [hcontext]
    exact ⟨g, f, hr, rfl, by simp only [record, hr], by simp only [record, hr]⟩

/-- **Inference resolves names exactly as the tree binds them.** If a pass ends well, every variable
of the tree is in scope or declared in the environment. If it reports a name that is not found, the
node it blames is a variable of the tree with that name, at a place where no node above it and no
entry of the environment provides it. So a tree all of whose names are provided never gets such a
report. -/
theorem scoped_of_pass (ctx : Context) (mode : Mode) (env : Env) (root : Expr) :
    (∀ T, (ctx.pass mode env root).verdict = .inferred T → root.Scoped env.names) ∧
    (∀ x, (ctx.pass mode env root).verdict = .failed (.unbound x) →
      (ctx.pass mode env root).context.error = some (.unbound x) ∧
      ∃ p, (ctx.pass mode env root).context.invalid = some ⟨p, .var x⟩ ∧
        root.at? p = some (.var x) ∧ x ∉ root.scopeAt p ∧ x ∉ env.names) ∧
    (root.Scoped env.names → ∀ x, (ctx.pass mode env root).verdict ≠ .failed (.unbound x)) := by
  have hmisses : ∀ x, (ctx.pass mode env root).verdict = .failed (.unbound x) →
      (ctx.pass mode env root).context.error = some (.unbound x) ∧
      ∃ p, (ctx.pass mode env root).context.invalid = some ⟨p, .var x⟩ ∧
        root.Misses env.names x p := by
    intro x hx
    obtain ⟨g, f, hr, hf, herror, hinvalid⟩ := exists_failed_of_failed hx nofun
    have hresolves := @infer_resolves root _ ⟨env, [], g, []⟩ rfl
    rw [Outcome.Resolves, hr] at hresolves
    obtain ⟨p, hp, hm⟩ := hresolves x hf
    obtain ⟨n, hn, hfills⟩ := (infer_fills root ⟨env, [], g, []⟩).at? hm.var
    cases hfills
    refine ⟨herror, p, ?_, hm⟩
    rw [hinvalid, hp, Option.bind_some, hn, Option.map_some]
  refine ⟨fun T hT => ?_, fun x hx => ?_, fun hscoped x hx => ?_⟩
  · obtain ⟨g, e, st, t, hdone, -⟩ := exists_done_of_inferred hT
    have hresolves := @infer_resolves root _ ⟨env, [], g, []⟩ rfl
    rw [hdone] at hresolves
    exact hresolves.2
  · obtain ⟨herror, p, hinvalid, hm⟩ := hmisses x hx
    exact ⟨herror, p, hinvalid, hm.var, hm.scope, hm.names⟩
  · obtain ⟨-, p, -, hm⟩ := hmisses x hx
    exact Expr.scoped_iff.1 hscoped x p hm

/-- The names of a tuple are used in its own value, a function calls itself, and its argument is
used where only the function is in scope. -/
def strayArg : Expr :=
  .letTuple [⟨"x", .absent⟩, ⟨"y", .absent⟩] (.tuple [.int 1, .eq (.var "x") (.int 2)])
    (.letRec ⟨"f", .absent⟩ [⟨"n", .absent⟩]
      (.ite (.var "y") (.var "n") (.app (.var "f") [.var "x"] .absent))
      (.app (.var "f") [.var "n"] .absent))

/-- The stray argument is reported, unless the environment has an entry of that name. -/
theorem scoped_of_pass_strayArg :
    (((fresh none).pass .onCopy [] strayArg).verdict = .failed (.unbound "n") ∧
      ∃ p, ((fresh none).pass .onCopy [] strayArg).context.invalid = some ⟨p, .var "n"⟩ ∧
        strayArg.at? p = some (.var "n") ∧ "n" ∉ strayArg.scopeAt p ∧ "n" ∉ Env.names []) ∧
    ((fresh none).pass .inPlace [⟨"n", .mono (.var 7)⟩] strayArg).verdict = .inferred .int ∧
    strayArg.Scoped (Env.names [⟨"n", .mono (.var 7)⟩]) := by
  have hstray : ((fresh none).pass .onCopy [] strayArg).verdict = .failed (.unbound "n") := by
    cbv
  have hfound : ((fresh none).pass .inPlace [⟨"n", .mono (.var 7)⟩] strayArg).verdict =
      .inferred .int := by
    cbv
  exact ⟨⟨hstray, ((scoped_of_pass _ _ _ _).2.1 _ hstray).2⟩, hfound,
    (scoped_of_pass _ _ _ _).1 _ hfound⟩

end Context

end LetPoly
