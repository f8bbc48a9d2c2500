import LetPoly.Proofs.Substitution

/-!
# Correctness of unification

Unification finds a most general solution whenever there is one. The stack of constraints is
rewritten at every step, so each result is an induction on the steps that a stack goes through:
`Solved` lists the steps of a search that ends well, and the recursion of `solve` itself carries the
proof that a search with a solution does end well.

## Main definitions

* `Solved`: a stack of constraints and the equations that the search finds for it.
* `Constraint.Holds`, `Unifies`: a function from ids to types that makes both sides equal.

## Main results

* `Solved.apply_eq`: the equations found make both sides of every constraint alike.
* `Solved.triangular`, `Solved.within`: they are triangular and mention no new ids.
* `solve_of_holds`: the search ends well if there is a solution, which then solves the equations.
* `unify_sound`: `unify` gives unifiers.
* `unify_mostGeneral`: `unify` finds a unifier if there is one, and then a most general one.
-/

namespace LetPoly

/-! ### Searches that end well -/

/-- The equations that the search finds for a stack of constraints, if it ends well. -/
inductive Solved : List Constraint → Subst → Prop where
  | nil : Solved [] []
  | refl {v : Int} {rest : List Constraint} {s : Subst} (h : Solved rest s) :
    Solved (⟨.var v, .var v⟩ :: rest) s
  | left {v : Int} {t : Ty} {rest : List Constraint} {s : Subst} (hv : v ∉ t.vars)
    (h : Solved (Constraint.replaceAll rest v t) s) : Solved (⟨.var v, t⟩ :: rest) (⟨v, t⟩ :: s)
  | right {v : Int} {t : Ty} {rest : List Constraint} {s : Subst} (hv : v ∉ t.vars)
    (h : Solved (Constraint.replaceAll rest v t) s) : Solved (⟨t, .var v⟩ :: rest) (⟨v, t⟩ :: s)
  | const {n : String} {rest : List Constraint} {s : Subst} (h : Solved rest s) :
    Solved (⟨.const n, .const n⟩ :: rest) s
  | arrow {as bs : List Ty} {r r' : Ty} {rest : List Constraint} {s : Subst}
    (h : Solved (⟨.tuple as, .tuple bs⟩ :: ⟨r, r'⟩ :: rest) s) :
    Solved (⟨.arrow as r, .arrow bs r'⟩ :: rest) s
  | tuple {as bs : List Ty} {rest : List Constraint} {s : Subst} (hlen : as.length = bs.length)
    (h : Solved (Constraint.between as bs ++ rest) s) :
    Solved (⟨.tuple as, .tuple bs⟩ :: rest) s

theorem solved_of_solve (cs : List Constraint) (h : (solve cs).failure = none) :
    Solved cs (solve cs).solved := by
  fun_induction solve cs with
  | case1 => exact .nil
  | case2 v rest ih => exact .refl (ih h)
  | case3 v t rest hne hv => cases h
  | case4 v t rest hne hv r ih => exact .left hv (ih h)
  | case5 t v rest hvar hv => cases h
  | case6 t v rest hvar hv r ih => exact .right hv (ih h)
  | case7 n rest ih => exact .const (ih h)
  | case8 => cases h
  | case9 as r bs s rest ih => exact .arrow (ih h)
  | case10 as bs rest hlen ih => exact .tuple hlen (ih h)
  | case11 => cases h
  | case12 => cases h

namespace Constraint

theorem forall_mem_replaceAll {p : Constraint → Prop} {cs : List Constraint} {v : Int} {u : Ty} :
    (∀ c ∈ replaceAll cs v u, p c) ↔ ∀ c ∈ cs, p (c.replace v u) :=
  List.forall_mem_map

/-- Two lists of one length are alike under `f` when their components are. -/
theorem map_eq_of_between {f : Ty → Ty} {as bs : List Ty} (hlen : as.length = bs.length)
    (h : ∀ c ∈ between as bs, f c.left = f c.right) : as.map f = bs.map f := by
  simp only [between, List.mem_reverse] at h
  induction as generalizing bs with
  | nil => rw [List.eq_nil_of_length_eq_zero hlen.symm]
  | cons a as ih =>
    obtain _ | ⟨b, bs⟩ := bs
    · simp at hlen
    · rw [List.zipWith_cons_cons, List.forall_mem_cons] at h
      rw [List.map_cons, List.map_cons, h.1, ih (Nat.succ.inj hlen) h.2]

theorem eq_of_mem_between {f : Ty → Ty} {as bs : List Ty} (h : as.map f = bs.map f) :
    ∀ c ∈ between as bs, f c.left = f c.right := by
  simp only [between, List.mem_reverse]
  induction as generalizing bs with
  | nil => simp
  | cons a as ih =>
    obtain _ | ⟨b, bs⟩ := bs
    · simp
    · rw [List.map_cons, List.map_cons, List.cons.injEq] at h
      rw [List.zipWith_cons_cons, List.forall_mem_cons]
      exact ⟨h.1, ih h.2⟩

/-- Both sides satisfy `P`. -/
def Both (P : Ty → Prop) (c : Constraint) : Prop :=
  P c.left ∧ P c.right

theorem both_between {P : Ty → Prop} {as bs : List Ty} (ha : ∀ a ∈ as, P a) (hb : ∀ b ∈ bs, P b) :
    ∀ c ∈ between as bs, c.Both P :=
  fun _ hc => ⟨ha _ (mem_between hc).1, hb _ (mem_between hc).2⟩

end Constraint

theorem Ty.replace_eq_self {v : Int} {u t : Ty} (hv : v ∉ t.vars) : t.replace v u = t :=
  Ty.subst_eq_self fun w hw => if_neg fun e : w = v => hv (e ▸ hw)

theorem Ty.Within.replace {P : Int → Prop} {t u : Ty} {v : Int} (ht : t.Within P)
    (hu : u.Within P) : (t.replace v u).Within P := by
  intro w hw
  rcases Ty.mem_vars_replace hw with ⟨hw, -⟩ | hw
  · exact ht w hw
  · exact hu w hw

theorem Ty.Complete.replace {t u : Ty} {v : Int} (ht : t.Complete) (hu : u.Complete) :
    (t.replace v u).Complete := by
  refine Ty.complete_subst.2 ⟨ht, fun w _ => ?_⟩
  rw [Ty.single]
  split
  · exact hu
  · exact Ty.complete_var w

namespace Solved

/-- The equations found make both sides of every constraint alike. -/
theorem apply_eq {cs : List Constraint} {s : Subst} (h : Solved cs s) :
    ∀ c ∈ cs, c.left.apply s = c.right.apply s := by
  induction h with
  | nil => exact fun _ hc => absurd hc List.not_mem_nil
  | refl h ih => exact List.forall_mem_cons.2 ⟨rfl, ih⟩
  | @left v t rest s hv h ih =>
    -- the pending constraints were rewritten by the first equation, as the result is applied first
    refine List.forall_mem_cons.2 ⟨?_, Constraint.forall_mem_replaceAll.1 ih⟩
    rw [Ty.apply_cons, Ty.apply_cons, Ty.replace_eq_self hv, Ty.replace, Ty.subst_var, Ty.single,
      if_pos rfl]
  | @right v t rest s hv h ih =>
    refine List.forall_mem_cons.2 ⟨?_, Constraint.forall_mem_replaceAll.1 ih⟩
    rw [Ty.apply_cons, Ty.apply_cons, Ty.replace_eq_self hv, Ty.replace, Ty.subst_var, Ty.single,
      if_pos rfl]
  | const h ih => exact List.forall_mem_cons.2 ⟨rfl, ih⟩
  | arrow h ih =>
    rw [List.forall_mem_cons, List.forall_mem_cons, Ty.apply_tuple, Ty.apply_tuple,
      Ty.tuple.injEq] at ih
    refine List.forall_mem_cons.2 ⟨?_, ih.2.2⟩
    rw [Ty.apply_arrow, Ty.apply_arrow, ih.1, ih.2.1]
  | tuple hlen h ih =>
    rw [List.forall_mem_append] at ih
    refine List.forall_mem_cons.2 ⟨?_, ih.2⟩
    rw [Ty.apply_tuple, Ty.apply_tuple, Constraint.map_eq_of_between hlen ih.1]

/-- A property of the types on a stack passes to the types of the equations found if replacing
variables keeps it. -/
theorem forall_types {P : Ty → Prop} {cs : List Constraint} {s : Subst} (h : Solved cs s)
    (hreplace : ∀ {t u : Ty} {v : Int}, P t → P u → P (t.replace v u))
    (harrow : ∀ {as : List Ty} {r : Ty}, P (.arrow as r) → P (.tuple as) ∧ P r)
    (htuple : ∀ {as : List Ty}, P (.tuple as) → ∀ a ∈ as, P a) (hcs : ∀ c ∈ cs, c.Both P) :
    ∀ q ∈ s, P (.var q.var) ∧ P q.type := by
  induction h with
  | nil => exact fun _ hq => absurd hq List.not_mem_nil
  | refl h ih => exact ih (List.forall_mem_cons.1 hcs).2
  | left hv h ih =>
    obtain ⟨hc, hrest⟩ := List.forall_mem_cons.1 hcs
    exact List.forall_mem_cons.2 ⟨hc, ih (Constraint.forall_mem_replaceAll.2 fun d hd =>
      ⟨hreplace (hrest d hd).1 hc.2, hreplace (hrest d hd).2 hc.2⟩)⟩
  | right hv h ih =>
    obtain ⟨hc, hrest⟩ := List.forall_mem_cons.1 hcs
    exact List.forall_mem_cons.2 ⟨⟨hc.2, hc.1⟩, ih (Constraint.forall_mem_replaceAll.2 fun d hd =>
      ⟨hreplace (hrest d hd).1 hc.1, hreplace (hrest d hd).2 hc.1⟩)⟩
  | const h ih => exact ih (List.forall_mem_cons.1 hcs).2
  | arrow h ih =>
    obtain ⟨hc, hrest⟩ := List.forall_mem_cons.1 hcs
    exact ih (List.forall_mem_cons.2 ⟨⟨(harrow hc.1).1, (harrow hc.2).1⟩,
      List.forall_mem_cons.2 ⟨⟨(harrow hc.1).2, (harrow hc.2).2⟩, hrest⟩⟩)
  | tuple hlen h ih =>
    obtain ⟨hc, hrest⟩ := List.forall_mem_cons.1 hcs
    exact ih (List.forall_mem_append.2
      ⟨Constraint.both_between (htuple hc.1) (htuple hc.2), hrest⟩)

/-- The equations mention only ids of the constraints. -/
theorem within {P : Int → Prop} {cs : List Constraint} {s : Subst} (h : Solved cs s)
    (hcs : ∀ c ∈ cs, c.Both (Ty.Within P)) : s.Within P := by
  have hs := h.forall_types (fun ht hu => ht.replace hu)
    (fun hf => ⟨Ty.Within.tuple fun a ha v hv => hf v (Ty.mem_vars_arrow.2 (.inl ⟨a, ha, hv⟩)),
      fun v hv => hf v (Ty.mem_vars_arrow.2 (.inr hv))⟩)
    (fun ht a ha v hv => ht v (Ty.mem_vars_tuple.2 ⟨a, ha, hv⟩)) hcs
  exact fun q hq => ⟨(hs q hq).1 q.var (Ty.mem_vars_var.2 rfl), (hs q hq).2⟩

/-- Complete constraints give complete equations. -/
theorem complete {cs : List Constraint} {s : Subst} (h : Solved cs s)
    (hcs : ∀ c ∈ cs, c.Both Ty.Complete) : s.Complete := by
  have hs := h.forall_types (fun ht hu => ht.replace hu)
    (fun hf => ⟨Ty.complete_tuple.2 (Ty.complete_arrow.1 hf).1, (Ty.complete_arrow.1 hf).2⟩)
    Ty.complete_tuple.1 hcs
  exact fun q hq => (hs q hq).2

/-- A variable that has been replaced by a type without it does not come back. -/
private theorem within_ne {v : Int} {t : Ty} {rest : List Constraint} {s : Subst} (hv : v ∉ t.vars)
    (h : Solved (Constraint.replaceAll rest v t) s) : s.Within (· ≠ v) := by
  have key : ∀ u : Ty, (u.replace v t).Within (· ≠ v) := by
    intro u w hw
    rcases Ty.mem_vars_replace hw with ⟨-, hne⟩ | hw
    · exact hne
    · exact fun e => hv (e ▸ hw)
  exact h.within (Constraint.forall_mem_replaceAll.2 fun d _ => ⟨key d.left, key d.right⟩)

/-- The equations found are triangular. -/
theorem triangular {cs : List Constraint} {s : Subst} (h : Solved cs s) : s.Triangular := by
  induction h with
  | nil => exact Subst.triangular_nil
  | refl h ih => exact ih
  | left hv h ih =>
    have hne := within_ne hv h
    exact Subst.triangular_cons.2
      ⟨hv, fun r hr => ⟨(hne r hr).1, fun hm => (hne r hr).2 _ hm rfl⟩, ih⟩
  | right hv h ih =>
    have hne := within_ne hv h
    exact Subst.triangular_cons.2
      ⟨hv, fun r hr => ⟨(hne r hr).1, fun hm => (hne r hr).2 _ hm rfl⟩, ih⟩
  | const h ih => exact ih
  | arrow h ih => exact ih
  | tuple hlen h ih => exact ih

end Solved

/-! ### Searches with a solution -/

namespace Ty

private theorem size_subst_le_sizeAll (θ : Int → Ty) {ts : List Ty} {t : Ty} (h : t ∈ ts) :
    (t.subst θ).size ≤ sizeAll (substAll θ ts) := by
  induction ts with
  | nil => exact absurd h List.not_mem_nil
  | cons u ts ih =>
    simp only [substAll, sizeAll]
    rcases List.mem_cons.1 h with rfl | h
    · omega
    · have := ih h
      omega

/-- What replaces a variable of a type is smaller than what the type becomes, unless the type is
that variable. -/
theorem size_le_size_subst {θ : Int → Ty} {v : Int} {t : Ty} (hv : v ∈ t.vars) :
    (θ v).size + (if t = .var v then 0 else 1) ≤ (t.subst θ).size := by
  induction t using Ty.ind with
  | absent => simp [vars] at hv
  | const n => simp [vars] at hv
  | var w =>
    rw [mem_vars_var.1 hv, if_pos rfl]
    exact Nat.le_refl _
  | arrow args ret iha ihr =>
    rw [if_neg (by simp)]
    simp only [subst, size]
    rcases mem_vars_arrow.1 hv with ⟨a, ha, hva⟩ | hvr
    · have h₁ := iha a ha hva
      have h₂ := size_subst_le_sizeAll θ ha
      omega
    · have h₁ := ihr hvr
      omega
  | tuple elems ih =>
    obtain ⟨a, ha, hva⟩ := mem_vars_tuple.1 hv
    have h₁ := ih a ha hva
    have h₂ := size_subst_le_sizeAll θ ha
    rw [if_neg (by simp)]
    simp only [subst, size]
    omega

/-- No replacement makes a variable equal to a larger type around it. -/
theorem subst_ne_of_mem_vars (θ : Int → Ty) {v : Int} {t : Ty} (hv : v ∈ t.vars)
    (hne : t ≠ .var v) : θ v ≠ t.subst θ := by
  intro h
  have hsize := size_le_size_subst (θ := θ) hv
  rw [if_neg hne, ← h] at hsize
  omega

end Ty

/-- The function `θ` makes both sides equal. -/
def Constraint.Holds (θ : Int → Ty) (c : Constraint) : Prop :=
  c.left.subst θ = c.right.subst θ

theorem Constraint.Holds.replace {θ : Int → Ty} {c : Constraint} {v : Int} {u : Ty}
    (h : θ v = u.subst θ) (hc : c.Holds θ) : (c.replace v u).Holds θ := by
  rw [Holds, Constraint.replace, Subst.subst_replace h, Subst.subst_replace h]
  exact hc

/-- A search among complete constraints that have a common solution ends well, and the solution
solves the equations found. -/
theorem solve_of_holds {θ : Int → Ty} (cs : List Constraint) (hθ : ∀ c ∈ cs, c.Holds θ)
    (hcs : ∀ c ∈ cs, c.Both Ty.Complete) :
    (solve cs).failure = none ∧ Subst.Solves θ (solve cs).solved := by
  fun_induction solve cs with
  | case1 => exact ⟨rfl, Subst.solves_nil θ⟩
  | case2 v rest ih => exact ih (List.forall_mem_cons.1 hθ).2 (List.forall_mem_cons.1 hcs).2
  | case3 v t rest hne hv =>
    exact absurd (List.forall_mem_cons.1 hθ).1 (Ty.subst_ne_of_mem_vars θ hv hne)
  | case4 v t rest hne hv r ih =>
    obtain ⟨h₀, hrest⟩ := List.forall_mem_cons.1 hθ
    obtain ⟨hc₀, hcrest⟩ := List.forall_mem_cons.1 hcs
    obtain ⟨hf, hs⟩ := ih (Constraint.forall_mem_replaceAll.2 fun d hd => (hrest d hd).replace h₀)
      (Constraint.forall_mem_replaceAll.2 fun d hd =>
        ⟨(hcrest d hd).1.replace hc₀.2, (hcrest d hd).2.replace hc₀.2⟩)
    exact ⟨hf, List.forall_mem_cons.2 ⟨h₀, hs⟩⟩
  | case5 t v rest hvar hv =>
    exact absurd (List.forall_mem_cons.1 hθ).1.symm
      (Ty.subst_ne_of_mem_vars θ hv fun e => hvar v e)
  | case6 t v rest hvar hv r ih =>
    obtain ⟨h₀, hrest⟩ := List.forall_mem_cons.1 hθ
    obtain ⟨hc₀, hcrest⟩ := List.forall_mem_cons.1 hcs
    obtain ⟨hf, hs⟩ := ih
      (Constraint.forall_mem_replaceAll.2 fun d hd => (hrest d hd).replace h₀.symm)
      (Constraint.forall_mem_replaceAll.2 fun d hd =>
        ⟨(hcrest d hd).1.replace hc₀.1, (hcrest d hd).2.replace hc₀.1⟩)
    exact ⟨hf, List.forall_mem_cons.2 ⟨h₀.symm, hs⟩⟩
  | case7 n rest ih => exact ih (List.forall_mem_cons.1 hθ).2 (List.forall_mem_cons.1 hcs).2
  | case8 m n rest hne => exact absurd (Ty.const.inj (List.forall_mem_cons.1 hθ).1) hne
  | case9 as r bs s rest ih =>
    obtain ⟨h₀, hrest⟩ := List.forall_mem_cons.1 hθ
    obtain ⟨hc₀, hcrest⟩ := List.forall_mem_cons.1 hcs
    obtain ⟨ha, hr⟩ := Ty.arrow.inj h₀
    obtain ⟨⟨ca, cr⟩, cb, cs⟩ := And.imp Ty.complete_arrow.1 Ty.complete_arrow.1 hc₀
    refine ih (List.forall_mem_cons.2 ⟨congrArg Ty.tuple ha, List.forall_mem_cons.2 ⟨hr, hrest⟩⟩)
      (List.forall_mem_cons.2 ⟨⟨Ty.complete_tuple.2 ca, Ty.complete_tuple.2 cb⟩,
        List.forall_mem_cons.2 ⟨⟨cr, cs⟩, hcrest⟩⟩)
  | case10 as bs rest hlen ih =>
    obtain ⟨h₀, hrest⟩ := List.forall_mem_cons.1 hθ
    obtain ⟨hc₀, hcrest⟩ := List.forall_mem_cons.1 hcs
    rw [Constraint.Holds, Ty.subst_tuple, Ty.subst_tuple, Ty.tuple.injEq] at h₀
    refine ih (List.forall_mem_append.2 ⟨Constraint.eq_of_mem_between h₀, hrest⟩)
      (List.forall_mem_append.2 ⟨Constraint.both_between (Ty.complete_tuple.1 hc₀.1)
        (Ty.complete_tuple.1 hc₀.2), hcrest⟩)
  | case11 as bs rest hlen =>
    have h₀ := (List.forall_mem_cons.1 hθ).1
    rw [Constraint.Holds, Ty.subst_tuple, Ty.subst_tuple, Ty.tuple.injEq] at h₀
    exact absurd (by simpa using congrArg List.length h₀) hlen
  | case12 a b rest hvar hvar' hconst harrow htuple =>
    -- the shapes differ, or a type is missing
    have h₀ := (List.forall_mem_cons.1 hθ).1
    have hc₀ := (List.forall_mem_cons.1 hcs).1
    rw [Constraint.Holds] at h₀
    cases a with
    | absent => exact absurd hc₀.1 Ty.not_complete_absent
    | var v => exact absurd rfl (hvar v)
    | const m =>
      cases b with
      | const n => exact absurd rfl (hconst m n rfl)
      | var v => exact absurd rfl (hvar' v)
      | absent => exact absurd hc₀.2 Ty.not_complete_absent
      | _ => simp at h₀
    | arrow as r =>
      cases b with
      | arrow bs s => exact absurd rfl (harrow as r bs s rfl)
      | var v => exact absurd rfl (hvar' v)
      | absent => exact absurd hc₀.2 Ty.not_complete_absent
      | _ => simp at h₀
    | tuple as =>
      cases b with
      | tuple bs => exact absurd rfl (htuple as bs rfl)
      | var v => exact absurd rfl (hvar' v)
      | absent => exact absurd hc₀.2 Ty.not_complete_absent
      | _ => simp at h₀

/-! ### The substitution for a list of constraints -/

/-- The function `θ` makes both sides of every constraint structurally equal. -/
def Unifies (θ : Int → Ty) (cs : List Constraint) : Prop :=
  ∀ c ∈ cs, (c.left.subst θ).equal (c.right.subst θ) = true

theorem unify_eq_ok {cs : List Constraint} {s : Subst} :
    unify cs = .ok s ↔ (solve cs.reverse).failure = none ∧ (solve cs.reverse).solved = s := by
  simp only [unify]
  split
  · rename_i e h
    simp [h]
  · rename_i h
    simp [h]

/-- **Unification is sound.** The substitution found makes the two sides of every constraint the
same type, and structurally equal ones unless a type is missing in them. -/
theorem unify_sound (cs : List Constraint) (s : Subst) (h : unify cs = .ok s) :
    ∀ c ∈ cs, c.left.apply s = c.right.apply s ∧
      ((c.left.apply s).Complete → (c.left.apply s).equal (c.right.apply s) = true) := by
  obtain ⟨hf, rfl⟩ := unify_eq_ok.1 h
  intro c hc
  have heq := (solved_of_solve cs.reverse hf).apply_eq c (List.mem_reverse.2 hc)
  exact ⟨heq, fun hcomplete => (Ty.equal_iff _ _).2 ⟨heq, hcomplete⟩⟩

/-- The constraint that is solved last is met by equations that were found before. -/
theorem unify_sound_chain :
    unify [⟨.var 0, .arrow [.var 1] (.var 2)⟩, ⟨.var 1, .tuple [.var 2, .absent]⟩,
      ⟨.var 2, .int⟩] =
        .ok [⟨2, .int⟩, ⟨1, .tuple [.int, .absent]⟩, ⟨0, .arrow [.tuple [.int, .absent]] .int⟩] ∧
    (Ty.var 0).apply
        [⟨2, .int⟩, ⟨1, .tuple [.int, .absent]⟩, ⟨0, .arrow [.tuple [.int, .absent]] .int⟩] =
      (Ty.arrow [.var 1] (.var 2)).apply
        [⟨2, .int⟩, ⟨1, .tuple [.int, .absent]⟩, ⟨0, .arrow [.tuple [.int, .absent]] .int⟩] := by
  have h : unify [⟨.var 0, .arrow [.var 1] (.var 2)⟩, ⟨.var 1, .tuple [.var 2, .absent]⟩,
      ⟨.var 2, .int⟩] =
        .ok [⟨2, .int⟩, ⟨1, .tuple [.int, .absent]⟩,
          ⟨0, .arrow [.tuple [.int, .absent]] .int⟩] := by
    cbv
  exact ⟨h, (unify_sound _ _ h ⟨.var 0, .arrow [.var 1] (.var 2)⟩ List.mem_cons_self).1⟩

/-- **Unification is complete and most general.** If some function unifies the constraints, then a
substitution is found, and the function does not tell types from the same types with the
substitution applied. So a failure means that nothing unifies the constraints. -/
theorem unify_mostGeneral (cs : List Constraint) :
    (∀ θ : Int → Ty, Unifies θ cs →
      ∃ s, unify cs = .ok s ∧ ∀ t : Ty, (t.apply s).subst θ = t.subst θ) ∧
    ∀ e : TypeError, unify cs = .error e → ¬ ∃ θ : Int → Ty, Unifies θ cs := by
  have found : ∀ θ : Int → Ty, Unifies θ cs →
      ∃ s, unify cs = .ok s ∧ ∀ t : Ty, (t.apply s).subst θ = t.subst θ := by
    intro θ hθ
    -- sides that are structurally equal after a replacement had no holes before it
    have hcs : ∀ c ∈ cs.reverse, c.Holds θ ∧ c.Both Ty.Complete := by
      intro c hc
      obtain ⟨heq, hleft⟩ := (Ty.equal_iff _ _).1 (hθ c (List.mem_reverse.1 hc))
      exact ⟨heq, (Ty.complete_subst.1 hleft).1, (Ty.complete_subst.1 (heq ▸ hleft)).1⟩
    obtain ⟨hf, hs⟩ := solve_of_holds cs.reverse (fun c hc => (hcs c hc).1)
      fun c hc => (hcs c hc).2
    exact ⟨_, unify_eq_ok.2 ⟨hf, rfl⟩, hs.subst_apply⟩
  refine ⟨found, ?_⟩
  rintro e he ⟨θ, hθ⟩
  obtain ⟨s, hs, -⟩ := found θ hθ
  rw [hs] at he
  cases he

/-- Two constraints that share variables have a unifier, which sees through the substitution found;
a type around a variable has none with it. -/
theorem unify_mostGeneral_shared :
    (∃ s, unify [⟨.var 0, .arrow [.var 1] (.var 2)⟩,
        ⟨.arrow [.var 0] (.var 1), .arrow [.var 3] (.tuple [.var 2, .var 2])⟩] = .ok s ∧
      ∀ t : Ty,
        (t.apply s).subst (fun v => if v = 2 then .int else if v = 1 then .tuple [.int, .int]
          else .arrow [.tuple [.int, .int]] .int) =
        t.subst (fun v => if v = 2 then .int else if v = 1 then .tuple [.int, .int]
          else .arrow [.tuple [.int, .int]] .int)) ∧
    ¬ ∃ θ : Int → Ty, Unifies θ [⟨.var 0, .arrow [.var 0] .int⟩] := by
  refine ⟨(unify_mostGeneral _).1 _ ?_, (unify_mostGeneral _).2 ⟨.occursCheck, .var 0,
    .arrow [.var 0] .int⟩ (by cbv)⟩
  intro c hc
  rcases List.mem_cons.1 hc with rfl | hc
  · decide
  · rw [List.mem_singleton.1 hc]
    decide

end LetPoly
