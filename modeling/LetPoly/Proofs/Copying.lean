import LetPoly.Proofs.Filling
import LetPoly.Proofs.Passes

/-!
# Copies of trees

A tree may hold nodes of a kind that is known by name only. Copying, listing the nodes and updating
the slots all need to know every node, and each of them goes through the tree in its own way. They
succeed on the same trees, and then a pass on a copy is the pass in place, but for the tree that it
was given, which stays as it is. No pass changes more of a tree than its slots.

## Main definitions

* `Expr.Native`: no path leads to a foreign node.

## Main results

* `Expr.copy_eq_ok_iff_native`, `Expr.walk_eq_ok_iff`, `Expr.mapSlots?_eq_ok_iff`: who needs to know
  every node.
* `Context.annotate_of_native`: a pass on a copy and a pass in place.
* `Context.fills_pass`: what a pass does to a tree.
* `Context.annotate_agrees`: all of this together.
-/

namespace LetPoly

namespace Expr

/-! ### Foreign nodes -/

/-- No path leads to a foreign node. -/
def Native (e : Expr) : Prop :=
  ∀ p name, e.at? p ≠ some (.foreign name)

theorem foreign?_eq_none_iff {e : Expr} : e.foreign? = none ↔ ∀ name, e ≠ .foreign name := by
  cases e <;> simp [foreign?]

theorem native_iff {e : Expr} : e.Native ↔ e.foreign? = none ∧ ∀ c ∈ e.children, c.Native := by
  rw [foreign?_eq_none_iff]
  constructor
  · intro h
    refine ⟨fun name heq => h [] name (congrArg some heq), fun c hc p name hp => ?_⟩
    obtain ⟨i, hi⟩ := List.mem_iff_getElem?.1 hc
    refine h (i :: p) name ?_
    rw [at?, hi]
    exact hp
  · rintro ⟨hroot, hchildren⟩ p name hp
    cases p with
    | nil => exact hroot name (Option.some.inj hp)
    | cons i p =>
      obtain ⟨c, hc, hp⟩ := Option.bind_eq_some_iff.1 hp
      exact hchildren c (List.mem_of_getElem? hc) p name hp

theorem everywhere_foreign?_iff (e : Expr) : e.Everywhere (·.foreign? = none) ↔ e.Native := by
  induction e using Expr.ind with
  | node e ih =>
    rw [native_iff]
    cases hroot : e.isAbsent with
    | true =>
      cases e with
      | absent => exact ⟨fun _ => ⟨rfl, List.forall_mem_nil _⟩, fun _ => List.forall_mem_nil _⟩
      | _ => cases hroot
    | false =>
      rw [everywhere_iff hroot]
      exact and_congr_right fun _ => forall₂_congr ih

/-- The search for a foreign node is in vain if there is none. -/
theorem unknown?_eq_none_iff {e : Expr} : e.unknown? = none ↔ e.Native := by
  rw [← everywhere_foreign?_iff, unknown?, Option.map_eq_none_iff, List.findSome?_eq_none_iff]
  rfl

theorem walk_eq_ok_iff {e : Expr} : (∃ nodes, e.walk = .ok nodes) ↔ e.Native := by
  rw [← unknown?_eq_none_iff, walk]
  cases e.unknown? <;> simp

theorem mapSlots?_eq_ok_iff {e : Expr} (f : Ty → Ty) :
    (∃ e', e.mapSlots? f = .ok e') ↔ e.Native := by
  rw [← unknown?_eq_none_iff, mapSlots?]
  cases e.unknown? <;> simp

/-! ### Copies -/

theorem copyAll_eq_ok_iff {es : List Expr} :
    copyAll es = .ok es ↔ ∀ e ∈ es, e.copy = .ok e := by
  induction es with
  | nil => simp [copyAll]
  | cons e es ih =>
    rw [List.forall_mem_cons, ← ih, copyAll]
    rcases e.copy_eq with he | ⟨k, he⟩ <;> rcases copyAll_eq es with hes | ⟨k, hes⟩ <;>
      simp [he, hes, bind, Except.bind, pure, Except.pure]

/-- A node is copied if it is known and its children are copied. -/
theorem copy_eq_ok_iff {e : Expr} :
    e.copy = .ok e ↔ e.foreign? = none ∧ ∀ c ∈ e.children, c.copy = .ok c := by
  cases e with
  | absent | unit | bool _ | int _ | var _ => simp [copy, foreign?, children]
  | foreign name => simp [copy, foreign?]
  | not e | neg e =>
    rcases e.copy_eq with he | ⟨k, he⟩ <;>
      simp [copy, foreign?, children, he, bind, Except.bind, pure, Except.pure]
  | arith _ l r | eq l r | le l r | letIn _ l r | letRec _ _ l r | letTuple _ l r =>
    rcases l.copy_eq with hl | ⟨k, hl⟩ <;> rcases r.copy_eq with hr | ⟨k, hr⟩ <;>
      simp [copy, foreign?, children, hl, hr, bind, Except.bind, pure, Except.pure]
  | ite c e₁ e₂ =>
    rcases c.copy_eq with hc | ⟨k, hc⟩ <;> rcases e₁.copy_eq with h₁ | ⟨k, h₁⟩ <;>
      rcases e₂.copy_eq with h₂ | ⟨k, h₂⟩ <;>
        simp [copy, foreign?, children, hc, h₁, h₂, bind, Except.bind, pure, Except.pure]
  | app fn args t =>
    rw [children, List.forall_mem_cons, ← copyAll_eq_ok_iff]
    rcases fn.copy_eq with hf | ⟨k, hf⟩ <;> rcases copyAll_eq args with ha | ⟨k, ha⟩ <;>
      simp [copy, foreign?, hf, ha, bind, Except.bind, pure, Except.pure]
  | tuple es =>
    rw [children, ← copyAll_eq_ok_iff]
    rcases copyAll_eq es with h | ⟨k, h⟩ <;>
      simp [copy, foreign?, h, bind, Except.bind, pure, Except.pure]

theorem copy_eq_ok_iff_native {e : Expr} : e.copy = .ok e ↔ e.Native := by
  induction e using Expr.ind with
  | node e ih =>
    rw [copy_eq_ok_iff, native_iff]
    exact and_congr_right fun _ => forall₂_congr ih

end Expr

/-! ### Passes -/

namespace Context

/-- A pass in place gives back the tree that it was given. -/
theorem given_infer (ctx : Context) (env : Env) (root : Expr) :
    (ctx.infer env root).given = (ctx.infer env root).tree := by
  rw [infer]
  split
  · rfl
  · rw [runOn]
    simp only
    split
    · rfl
    · split <;> rfl

theorem given_annotate (ctx : Context) (env : Env) (root : Expr) :
    (ctx.annotate env root).given = root := by
  rw [annotate]
  split
  · rfl
  · split <;> rfl

/-- A pass on a copy does what the pass in place does, but for the tree that it was given. -/
theorem annotate_of_native {root : Expr} (h : root.Native) (ctx : Context) (env : Env) :
    ctx.annotate env root = { ctx.infer env root with given := root } := by
  rw [annotate, infer, Expr.copy_eq_ok_iff_native.2 h]
  split <;> rfl

/-- A pass changes the slots of a tree and nothing else. -/
theorem fills_infer (ctx : Context) (env : Env) (root : Expr) :
    root.Fills .declared (ctx.infer env root).tree := by
  rw [infer]
  split
  · exact .refl root
  · rw [runOn]
    simp only
    split
    · exact .refl root
    · have hfills := infer_fills root ⟨env, [], ‹Supply›, []⟩
      split
      · exact hfills.mapSlots _
      · exact hfills

theorem fills_pass (ctx : Context) (mode : Mode) (env : Env) (root : Expr) :
    root.Fills .declared (ctx.pass mode env root).tree := by
  rcases ctx.pass_eq mode env root with ⟨given, heq⟩ | ⟨k, heq⟩
  · rw [heq]
    exact ctx.fills_infer env root
  · rw [heq]
    exact .refl root

theorem render_given_pass (ctx : Context) (mode : Mode) (env : Env) (root : Expr) :
    (ctx.pass mode env root).given.render = root.render := by
  cases mode with
  | inPlace =>
    rw [pass, given_infer]
    exact (ctx.fills_infer env root).render
  | onCopy => rw [pass, given_annotate]

/-- **A pass on a copy agrees with the pass in place.** Copies, lists of nodes and updates of slots
are made of the trees without foreign nodes, and a copy is the same tree. On such a tree, a pass on
a copy leaves the same context, the same verdict and the same tree as the pass in place. The tree
that it was given stays as it is. A pass of either kind changes nothing but slots, however it
ends. -/
theorem annotate_agrees (ctx : Context) (env : Env) (root : Expr) :
    (root.copy = .ok root ↔ root.Native) ∧ ((∃ e, root.copy = .ok e) ↔ root.Native) ∧
    ((∃ nodes, root.walk = .ok nodes) ↔ root.Native) ∧
    (∀ f, (∃ e, root.mapSlots? f = .ok e) ↔ root.Native) ∧
    (root.Native → ctx.annotate env root = { ctx.infer env root with given := root } ∧
      (ctx.annotate env root).tree = (ctx.infer env root).given) ∧
    (ctx.annotate env root).given = root ∧
    ∀ mode, root.Fills .declared (ctx.pass mode env root).tree ∧
      (ctx.pass mode env root).tree.render = root.render ∧
      (ctx.pass mode env root).given.render = root.render := by
  have hcopy : (∃ e, root.copy = .ok e) ↔ root.Native := by
    rw [← Expr.copy_eq_ok_iff_native]
    rcases root.copy_eq with h | ⟨k, h⟩ <;> simp [h]
  refine ⟨Expr.copy_eq_ok_iff_native, hcopy, Expr.walk_eq_ok_iff, Expr.mapSlots?_eq_ok_iff,
    fun h => ?_, ctx.given_annotate env root, fun mode => ?_⟩
  · have heq := annotate_of_native h ctx env
    refine ⟨heq, ?_⟩
    rw [heq, given_infer]
  · exact ⟨ctx.fills_pass mode env root, (ctx.fills_pass mode env root).render,
      ctx.render_given_pass mode env root⟩

/-- A pass that fails has filled slots of the copy, and of nothing else. -/
theorem annotate_agrees_misfit :
    misfit.Native ∧
    ((fresh (some ⟨5⟩)).annotate [] misfit).verdict =
      .failed (.type ⟨.mismatch, .bool, .int⟩) ∧
    ((fresh (some ⟨5⟩)).annotate [] misfit).given = misfit ∧
    ((fresh (some ⟨5⟩)).annotate [] misfit).tree.slots.map (·.type) ≠
      misfit.slots.map (·.type) ∧
    ((fresh (some ⟨5⟩)).annotate [] misfit).tree =
      ((fresh (some ⟨5⟩)).infer [] misfit).given := by
  obtain ⟨hcopy, -, -, -, hagrees, hgiven, -⟩ := annotate_agrees (fresh (some ⟨5⟩)) [] misfit
  have hnative := hcopy.1 rfl
  exact ⟨hnative, by cbv, hgiven, by cbv; decide, (hagrees hnative).2⟩

end Context

end LetPoly
