import LetPoly.Proofs.Relabelling
import Mathlib.Logic.Equiv.Basic

/-!
# Symmetry of unification

The two sides of a constraint count alike. Swapping them turns around the equations between two
variables, so from then on the two searches work with different ids; they stay in step up to a
permutation of ids, which grows by one transposition whenever such an equation is found.

## Main definitions

* `Constraint.swap`, `Constraint.swapAt`: a constraint with its sides swapped, and a list with the
  sides of some of its constraints swapped.
* `Constraint.Mirrors`, `Solution.Mirrors`: constraints and outcomes that are the same up to a
  permutation of ids and the order of sides.

## Main results

* `solve_mirrors`: stacks that mirror each other have outcomes that mirror each other.
* `unify_swapAt`: unification does not depend on the order of sides.
-/

namespace LetPoly

namespace Constraint

/-- The constraint with its sides swapped. -/
def swap (c : Constraint) : Constraint :=
  ⟨c.right, c.left⟩

/-- The constraints with the sides of the chosen ones swapped. -/
def swapAt (chosen : Nat → Bool) (cs : List Constraint) : List Constraint :=
  cs.mapIdx fun i c => if chosen i then c.swap else c

/-- The constraint `c'` is `c` under the permutation `p`, possibly with the sides swapped. -/
def Mirrors (p : Equiv.Perm Int) (c c' : Constraint) : Prop :=
  c' = c.relabel p ∨ c' = (c.relabel p).swap

variable {p q : Equiv.Perm Int} {c c' : Constraint}

theorem Mirrors.swap (h : c.Mirrors p c') : c.swap.Mirrors p c' := by
  rcases h with rfl | rfl
  · exact .inr rfl
  · exact .inl rfl

/-- Replacements that correspond to each other keep constraints in step. -/
theorem Mirrors.replace {v v' : Int} {t t' : Ty}
    (h : ∀ u : Ty, (u.relabel p).replace v' t' = (u.replace v t).relabel q)
    (hc : c.Mirrors p c') : (c.replace v t).Mirrors q (c'.replace v' t') := by
  rcases hc with rfl | rfl
  · left
    simp only [Constraint.replace, relabel, h]
  · right
    simp only [Constraint.replace, relabel, Constraint.swap, h]

theorem mirrors_replaceAll {v v' : Int} {t t' : Ty} {cs cs' : List Constraint}
    (h : ∀ u : Ty, (u.relabel p).replace v' t' = (u.replace v t).relabel q)
    (hcs : List.Forall₂ (Mirrors p) cs cs') :
    List.Forall₂ (Mirrors q) (replaceAll cs v t) (replaceAll cs' v' t') :=
  List.forall₂_map_left_iff.2 (List.forall₂_map_right_iff.2 (hcs.imp fun _ _ hc => hc.replace h))

/-- The mirror image of a constraint between tuples is one between tuples of the same lengths. -/
theorem Mirrors.exists_tuple {as bs : List Ty} (h : Mirrors p ⟨.tuple as, .tuple bs⟩ c') :
    ∃ as' bs', c' = ⟨.tuple as', .tuple bs'⟩ ∧
      (as'.length = bs'.length ↔ as.length = bs.length) := by
  rcases h with rfl | rfl
  · refine ⟨as.map (·.relabel p), bs.map (·.relabel p), ?_, by simp⟩
    rw [relabel, Ty.relabel_tuple, Ty.relabel_tuple]
  · refine ⟨bs.map (·.relabel p), as.map (·.relabel p), ?_, by simp [eq_comm]⟩
    rw [relabel, Constraint.swap, Ty.relabel_tuple, Ty.relabel_tuple]

/-- The constraints between the components of two tuples, in either order of the tuples. -/
theorem mirrors_between {as bs as' bs' : List Ty}
    (h : Mirrors p ⟨.tuple as, .tuple bs⟩ ⟨.tuple as', .tuple bs'⟩) :
    List.Forall₂ (Mirrors p) (between as bs) (between as' bs') := by
  have hside : ∀ as bs : List Ty,
      List.Forall₂ (Mirrors p) (List.zipWith Constraint.mk as bs)
        (List.zipWith Constraint.mk (as.map (·.relabel p)) (bs.map (·.relabel p))) ∧
      List.Forall₂ (Mirrors p) (List.zipWith Constraint.mk as bs)
        (List.zipWith Constraint.mk (bs.map (·.relabel p)) (as.map (·.relabel p))) := by
    intro as
    induction as with
    | nil => exact fun bs => ⟨by simp, by simp⟩
    | cons a as ih =>
      rintro (_ | ⟨b, bs⟩)
      · exact ⟨by simp, by simp⟩
      · exact ⟨.cons (.inl rfl) (ih bs).1, .cons (.inr rfl) (ih bs).2⟩
  refine List.rel_reverse ?_
  rcases h with h | h
  · simp only [relabel, Ty.relabel_tuple, mk.injEq, Ty.tuple.injEq] at h
    obtain ⟨rfl, rfl⟩ := h
    exact (hside as bs).1
  · simp only [relabel, Constraint.swap, Ty.relabel_tuple, mk.injEq, Ty.tuple.injEq] at h
    obtain ⟨rfl, rfl⟩ := h
    exact (hside as bs).2

end Constraint

/-! ### Two searches in step -/

/-- The outcomes `r` and `r'` are of one kind, with as many equations, and what they put in place of
types that differ by `p` differs by a permutation again. -/
structure Solution.Mirrors (p : Equiv.Perm Int) (r r' : Solution) : Prop where
  kind : r'.failure.map (·.kind) = r.failure.map (·.kind)
  length : r'.solved.length = r.solved.length
  apply : ∃ q : Equiv.Perm Int, ∀ t : Ty,
    (t.relabel p).apply r'.solved = (t.apply r.solved).relabel q

namespace Solution

variable {p q : Equiv.Perm Int}

/-- Searches that stop at once with the same kind of failure, or none. -/
theorem mirrors_nil {e e' : Option TypeError} (h : e'.map (·.kind) = e.map (·.kind)) :
    Mirrors p ⟨[], e⟩ ⟨[], e'⟩ :=
  ⟨h, rfl, p, fun _ => rfl⟩

/-- A first equation on both sides. -/
theorem Mirrors.cons {v v' : Int} {t t' : Ty} {r r' : Solution}
    (h : ∀ u : Ty, (u.relabel p).replace v' t' = (u.replace v t).relabel q)
    (hr : r.Mirrors q r') :
    Mirrors p ⟨⟨v, t⟩ :: r.solved, r.failure⟩ ⟨⟨v', t'⟩ :: r'.solved, r'.failure⟩ := by
  obtain ⟨q', hq'⟩ := hr.apply
  refine ⟨hr.kind, congrArg (· + 1) hr.length, q', fun u => ?_⟩
  rw [Ty.apply_cons, Ty.apply_cons, h, hq']

end Solution

/-- A variable and another type may stand on either side, unless the type is a variable too. -/
theorem solve_swap_var {t : Ty} {v : Int} (ht : ∀ w, t ≠ .var w) (rest : List Constraint) :
    solve (⟨t, .var v⟩ :: rest) = solve (⟨.var v, t⟩ :: rest) := by
  rw [solve, solve, if_neg (ht v)]
  exact ht

section Steps

variable {p : Equiv.Perm Int} {v : Int} {t : Ty} {c' : Constraint} {rest rest' : List Constraint}

/-- The mirror image of a constraint between a variable and a type that is none. -/
theorem Constraint.Mirrors.solve_eq (ht : ∀ w, t ≠ .var w) (h : Mirrors p ⟨.var v, t⟩ c') :
    solve (c' :: rest') = solve (⟨.var (p v), t.relabel p⟩ :: rest') := by
  rcases h with rfl | rfl
  · rfl
  · refine solve_swap_var (fun w e => ?_) rest'
    obtain ⟨u, hu, -⟩ := Ty.relabel_eq_var.1 e
    exact ht u hu

/-- The search ends at a type around the variable it is to be equal to. -/
theorem solve_occurs (hne : t ≠ .var v) (hv : v ∈ t.vars) :
    solve (⟨.var v, t⟩ :: rest) = ⟨[], some ⟨.occursCheck, .var v, t⟩⟩ := by
  rw [solve, if_neg hne, dif_pos hv]

/-- A variable is eliminated by a type without it. -/
theorem solve_bind (hv : v ∉ t.vars) :
    solve (⟨.var v, t⟩ :: rest) =
      ⟨⟨v, t⟩ :: (solve (Constraint.replaceAll rest v t)).solved,
        (solve (Constraint.replaceAll rest v t)).failure⟩ := by
  have hne : t ≠ .var v := fun e => by
    rw [e, Ty.mem_vars_var] at hv
    exact hv rfl
  rw [solve, if_neg hne, dif_neg hv]

/-- The types that fail the occurs check fail it in the mirror too. -/
theorem mirrors_occurs (ht : ∀ w, t ≠ .var w) (hv : v ∈ t.vars)
    (h : Constraint.Mirrors p ⟨.var v, t⟩ c') :
    Solution.Mirrors p ⟨[], some ⟨.occursCheck, .var v, t⟩⟩ (solve (c' :: rest')) := by
  have ht' : t.relabel p ≠ .var (p v) := fun e => by
    obtain ⟨u, hu, -⟩ := Ty.relabel_eq_var.1 e
    exact ht u hu
  rw [h.solve_eq ht, solve_occurs ht' ((Ty.mem_vars_relabel_iff p.injective).2 hv)]
  exact Solution.mirrors_nil rfl

/-- A variable is bound on one side, and its image on the other. -/
theorem mirrors_bind (hv : v ∉ t.vars)
    (h : solve (c' :: rest') = solve (⟨.var (p v), t.relabel p⟩ :: rest'))
    (hrest : List.Forall₂ (Constraint.Mirrors p) rest rest')
    (ih : ∀ {q : Equiv.Perm Int} {cs' : List Constraint},
      List.Forall₂ (Constraint.Mirrors q) (Constraint.replaceAll rest v t) cs' →
        (solve (Constraint.replaceAll rest v t)).Mirrors q (solve cs')) :
    Solution.Mirrors p
      ⟨⟨v, t⟩ :: (solve (Constraint.replaceAll rest v t)).solved,
        (solve (Constraint.replaceAll rest v t)).failure⟩ (solve (c' :: rest')) := by
  have hstep : ∀ u : Ty, (u.relabel p).replace (p v) (t.relabel p) = (u.replace v t).relabel p :=
    fun u => (Ty.relabel_replace p.injective u v t).symm
  rw [h, solve_bind (mt (Ty.mem_vars_relabel_iff p.injective).1 hv)]
  exact (ih (Constraint.mirrors_replaceAll hstep hrest)).cons hstep

end Steps

/-- Putting `w` for `v` on one side and `v` for `w` on the other leaves types that differ by the
transposition of the two. -/
theorem Ty.replace_swap (p : Equiv.Perm Int) {v w : Int} (hne : w ≠ v) (u : Ty) :
    (u.relabel p).replace (p w) (.var (p v)) =
      (u.replace v (.var w)).relabel (p.trans (Equiv.swap (p v) (p w))) := by
  rw [replace, replace, relabel_subst, subst_relabel]
  refine subst_congr fun x _ => ?_
  by_cases hxv : x = v
  · subst hxv
    rw [single, single, if_pos rfl, if_neg (fun e => hne (p.injective e).symm), relabel_var,
      Equiv.trans_apply, Equiv.swap_apply_right]
  · rw [single, single, if_neg hxv, relabel_var, Equiv.trans_apply]
    by_cases hxw : x = w
    · rw [hxw, if_pos rfl, Equiv.swap_apply_right]
    · rw [if_neg fun e => hxw (p.injective e), Equiv.swap_apply_of_ne_of_ne
        (fun e => hxv (p.injective e)) (fun e => hxw (p.injective e))]

/-- Stacks of constraints that mirror each other have outcomes that mirror each other. -/
theorem solve_mirrors (cs : List Constraint) : ∀ {p : Equiv.Perm Int} {cs' : List Constraint},
    List.Forall₂ (Constraint.Mirrors p) cs cs' → (solve cs).Mirrors p (solve cs') := by
  fun_induction solve cs with
  | case1 =>
    rintro p _ (_ | _)
    rw [solve]
    exact Solution.mirrors_nil rfl
  | case2 v rest ih =>
    rintro p _ (_ | ⟨hc, hrest⟩)
    rcases hc with rfl | rfl <;>
      simpa only [Constraint.relabel, Constraint.swap, Ty.relabel_var, solve, if_pos] using ih hrest
  | case3 v t rest hne hv =>
    rintro p _ (_ | ⟨hc, hrest⟩)
    refine mirrors_occurs (fun w e => ?_) hv hc
    subst e
    exact hne (congrArg Ty.var (Ty.mem_vars_var.1 hv).symm)
  | case4 v t rest hne hv r =>
    rename_i ih
    rintro p _ (_ | ⟨hc, hrest⟩)
    by_cases ht : ∃ w, t = .var w
    · obtain ⟨w, rfl⟩ := ht
      have hwv : w ≠ v := fun e => hne (congrArg Ty.var e)
      rcases hc with rfl | rfl
      · exact mirrors_bind hv rfl hrest ih
      · -- here the two searches bind different variables
        have hstep := Ty.replace_swap p hwv
        have hv' : p w ∉ (Ty.var (p v)).vars := fun h =>
          hwv (p.injective (Ty.mem_vars_var.1 h))
        simp only [Constraint.relabel, Constraint.swap, Ty.relabel_var]
        rw [solve_bind hv']
        exact (ih (Constraint.mirrors_replaceAll hstep hrest)).cons hstep
    · exact mirrors_bind hv (hc.solve_eq fun w e => ht ⟨w, e⟩) hrest ih
  | case5 t v rest hvar hv =>
    rintro p _ (_ | ⟨hc, hrest⟩)
    exact mirrors_occurs (fun w e => hvar w e) hv hc.swap
  | case6 t v rest hvar hv r =>
    rename_i ih
    rintro p _ (_ | ⟨hc, hrest⟩)
    exact mirrors_bind hv (hc.swap.solve_eq fun w e => hvar w e) hrest ih
  | case7 n rest ih =>
    rintro p _ (_ | ⟨hc, hrest⟩)
    rcases hc with rfl | rfl <;>
      simpa only [Constraint.relabel, Constraint.swap, Ty.relabel_const, solve, if_pos]
        using ih hrest
  | case8 m n rest hne =>
    rintro p _ (_ | ⟨hc, hrest⟩)
    rcases hc with rfl | rfl
    · simp only [Constraint.relabel, Ty.relabel_const, solve, if_neg hne]
      exact Solution.mirrors_nil rfl
    · simp only [Constraint.relabel, Constraint.swap, Ty.relabel_const, solve, if_neg (Ne.symm hne)]
      exact Solution.mirrors_nil rfl
  | case9 as r bs s rest ih =>
    rintro p _ (_ | ⟨hc, hrest⟩)
    -- arguments and results change sides together
    rcases hc with rfl | rfl
    · rw [Constraint.relabel, Ty.relabel_arrow, Ty.relabel_arrow, solve, ← Ty.relabel_tuple,
        ← Ty.relabel_tuple]
      exact ih (.cons (.inl rfl) (.cons (.inl rfl) hrest))
    · rw [Constraint.relabel, Constraint.swap, Ty.relabel_arrow, Ty.relabel_arrow, solve,
        ← Ty.relabel_tuple, ← Ty.relabel_tuple]
      exact ih (.cons (.inr rfl) (.cons (.inr rfl) hrest))
  | case10 as bs rest hlen ih =>
    rintro p _ (_ | ⟨hc, hrest⟩)
    obtain ⟨as', bs', rfl, hlen'⟩ := Constraint.Mirrors.exists_tuple hc
    rw [solve, if_pos (hlen'.2 hlen)]
    exact ih (List.rel_append (Constraint.mirrors_between hc) hrest)
  | case11 as bs rest hlen =>
    rintro p _ (_ | ⟨hc, hrest⟩)
    obtain ⟨as', bs', rfl, hlen'⟩ := Constraint.Mirrors.exists_tuple hc
    rw [solve, if_neg (mt hlen'.1 hlen)]
    exact Solution.mirrors_nil rfl
  | case12 a b rest hvar hvar' hconst harrow htuple =>
    have hclash := Ty.clashes_of_forall hvar hvar' hconst harrow htuple
    rintro p _ (_ | ⟨hc, hrest⟩)
    rcases hc with rfl | rfl
    · rw [Constraint.relabel, solve_of_clashes (Ty.clashes_relabel a b ▸ hclash)]
      exact Solution.mirrors_nil rfl
    · rw [Ty.clashes_comm] at hclash
      rw [Constraint.relabel, Constraint.swap,
        solve_of_clashes (Ty.clashes_relabel b a ▸ hclash)]
      exact Solution.mirrors_nil rfl

/-! ### Swapping sides -/

theorem Ty.relabel_refl (t : Ty) : t.relabel (Equiv.refl Int) = t :=
  Ty.relabel_eq_self fun _ _ => rfl

theorem Constraint.mirrors_swapAt (chosen : Nat → Bool) (cs : List Constraint) :
    List.Forall₂ (Mirrors (Equiv.refl Int)) cs (swapAt chosen cs) := by
  have hself : ∀ c : Constraint, c.relabel (Equiv.refl Int) = c := fun c => by
    rw [relabel, Ty.relabel_refl, Ty.relabel_refl]
  induction cs generalizing chosen with
  | nil => exact .nil
  | cons c cs ih =>
    rw [swapAt, List.mapIdx_cons]
    refine .cons ?_ (ih fun i => chosen (i + 1))
    rw [Mirrors, hself]
    split
    · exact .inr rfl
    · exact .inl rfl

/-- **Unification does not depend on the order of sides.** With the sides of any constraints
swapped, unification ends well or fails as before. If it ends well, the two substitutions are
equally long and give the same types up to a permutation of ids; if it fails, then for a reason of
the same kind. -/
theorem unify_swapAt (cs : List Constraint) (chosen : Nat → Bool) :
    (∃ s s', unify cs = .ok s ∧ unify (Constraint.swapAt chosen cs) = .ok s' ∧
      s'.length = s.length ∧
      ∃ p : Equiv.Perm Int, ∀ t : Ty, t.apply s' = (t.apply s).relabel p) ∨
    ∃ e e', unify cs = .error e ∧ unify (Constraint.swapAt chosen cs) = .error e' ∧
      e'.kind = e.kind := by
  obtain ⟨hkind, hlength, p, hp⟩ :=
    solve_mirrors cs.reverse (List.rel_reverse (Constraint.mirrors_swapAt chosen cs))
  cases hf : (solve cs.reverse).failure with
  | none =>
    left
    rw [hf, Option.map_none, Option.map_eq_none_iff] at hkind
    refine ⟨_, _, unify_eq_ok.2 ⟨hf, rfl⟩, unify_eq_ok.2 ⟨hkind, rfl⟩, hlength, p, fun t => ?_⟩
    rw [← hp, Ty.relabel_refl]
  | some e =>
    right
    rw [hf, Option.map_some, Option.map_eq_some_iff] at hkind
    obtain ⟨e', hf', hkind⟩ := hkind
    exact ⟨e, e', by rw [unify, hf], by rw [unify, hf'], hkind⟩

end LetPoly
