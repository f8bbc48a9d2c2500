import LetPoly.Proofs.Annotation
import LetPoly.Proofs.Retracing
import LetPoly.Proofs.Soundness

/-!
# Inference on its own results

A pass leaves a tree in which every slot is filled, and many slots may share the variables that they
hold. A second pass takes these slots for declarations, and still comes to the same result, up to
the ids. What the first pass leaves is a derivation; the second one follows it, and leaves one that
is at least as general. Nothing is more general than what the first pass finds, so each of the two
is an instance of the other.

## Main definitions

* `Env.Closed`: the schemes of an environment quantify all their ids.
* `Expr.Ground`: what is declared in the slots of the bindings has no variables.
* `Context.HasRoom`: a pass that starts above the ids in slots and bodies does not run out of ids.

## Main results

* `exists_perm_of_mapSlots`: trees and types that are instances of each other differ by a renaming.
* `Context.infer_again`: a second pass finds what the first one found, up to a renaming.
-/

namespace LetPoly

open Outcome

/-! ### Trees and environments to start from -/

/-- Every id quantified by a scheme occurs in its body, and no other does; no type is missing. -/
def Env.Closed (env : Env) : Prop :=
  ∀ x ∈ env, x.scheme.body.Complete ∧ x.scheme.body.freeVars = x.scheme.bound

instance (env : Env) : Decidable env.Closed :=
  inferInstanceAs (Decidable (∀ x ∈ env, _ ∧ _))

/-- The slot of every binding is empty, or holds a type without variables in which nothing is
missing. -/
def Expr.Ground (e : Expr) : Prop :=
  ∀ s ∈ e.slots, s.kind ≠ .application → s.type = .absent ∨ s.type.Complete ∧ s.type.vars = []

instance (e : Expr) : Decidable e.Ground :=
  inferInstanceAs (Decidable (∀ s ∈ e.slots, _ → _ ∨ _))

/-- The largest id in slots and bodies has a successor, and so has every id that the pass draws. -/
structure Context.HasRoom (ctx : Context) (env : Env) (root : Expr) : Prop where
  start : env.maxVar root.maxVar < Supply.last
  draws : NoWrap (ctx.infer env root).trace

theorem Context.unknown?_of_inferred {env : Env} {root : Expr} {ctx : Context} {T : Ty}
    (hctx : ctx.supply = none)
    (h : (ctx.infer env root).verdict = .inferred T) : root.unknown? = none := by
  cases hu : root.unknown? with
  | none => rfl
  | some k =>
    have hstop : ctx.passSupply env root = .error k := by
      simp only [passSupply, hctx, hu]
    rw [infer] at h
    split at h
    · cases h
    · rw [runOn] at h
      simp only [passSupply_reset, hstop] at h
      cases h

/-! ### Closed environments -/

namespace Env.Closed

variable {env : Env}

theorem mem_bound_iff (h : env.Closed) {x : Entry} (hx : x ∈ env) {v : Int} :
    v ∈ x.scheme.bound ↔ v ∈ x.scheme.body.vars := by
  rw [← (h x hx).2, Ty.mem_freeVars]

theorem not_mem_freeVars (h : env.Closed) {v : Int} : ¬ v ∈ env.freeVars := by
  intro hv
  obtain ⟨x, hx, hvx⟩ := Env.mem_freeVars.1 hv
  obtain ⟨hbody, hbound⟩ := Scheme.mem_freeVars.1 hvx
  exact hbound ((h.mem_bound_iff hx).2 hbody)

/-- There is nothing to substitute in a closed environment. -/
theorem apply_eq (h : env.Closed) (s : Subst) : env.apply s = env := by
  refine (List.map_congr_left fun x hx => ?_).trans (List.map_id' env)
  have hbody : x.scheme.body.apply (x.scheme.visible s) = x.scheme.body :=
    Ty.apply_eq_self fun q hq hv => (Scheme.mem_visible.1 hq).2 ((h.mem_bound_iff hx).2 hv)
  exact congrArg (fun t => Entry.mk x.name ⟨x.scheme.bound, t⟩) hbody

/-- A closed environment has all its relabellings as images. -/
theorem image (h : env.Closed) (θ : Int → Ty) (π : Equiv.Perm Int) :
    env.Image θ (env.relabel π) := by
  rw [Env.Image, Env.relabel, List.forall₂_map_right_iff, List.forall₂_same]
  refine fun x hx => ⟨rfl, π, fun _ _ _ _ he => π.injective he, fun v hv => ?_, ?_⟩
  · exact absurd (Env.mem_freeVars.2 ⟨x, hx, hv⟩) h.not_mem_freeVars
  · refine congrArg (Scheme.mk _) (Ty.subst_congr fun v hv => ?_)
    rw [if_pos ((h.mem_bound_iff hx).2 hv)]

end Env.Closed

section States

variable {env : Env} {root : Expr} {n : Int}

theorem Expr.Ground.reserve_eq_nil (h : root.Ground) : reserve root.bindings = [] := by
  refine List.flatMap_eq_nil_iff.2 fun b hb => ?_
  obtain ⟨s, hs, hkind, hslot⟩ := Expr.exists_slot hb
  rcases h s hs hkind with habs | ⟨-, hvars⟩
  · rw [← hslot, habs]
    rfl
  · rw [← hslot, hvars]

/-- A pass over a tree without variables in a closed environment starts without clashes. -/
theorem Expr.Ground.ready (h : root.Ground) (henv : env.Closed) (hlow : Supply.first ≤ n)
    (hbelow : ∀ x ∈ env, x.scheme.body.Within (· < n)) :
    Ready root.bindings ⟨env, [], ⟨n⟩, []⟩ := by
  refine ⟨⟨hlow, Subst.triangular_nil, fun _ hq => absurd hq List.not_mem_nil, Subst.within_nil _,
    fun x hx => ⟨(henv x hx).1, hbelow x hx⟩, ?_⟩, fun b hb => ?_, ?_, ?_⟩
  · rintro v ⟨x, hx, hv⟩
    refine ⟨hbelow x hx v ((henv.mem_bound_iff hx).1 hv), ?_,
      fun _ hq => absurd hq List.not_mem_nil⟩
    rintro ⟨u, hu, -⟩
    exact henv.not_mem_freeVars hu
  · obtain ⟨s, hs, hkind, hslot⟩ := Expr.exists_slot hb
    rw [Binding.Plain, ← hslot]
    exact (h s hs hkind).imp_right .inl
  · rw [h.reserve_eq_nil]
    exact List.nodup_nil
  · rw [h.reserve_eq_nil]
    exact fun _ hv => absurd hv List.not_mem_nil

/-- A pass over an annotated tree starts with the derivation as it is. -/
theorem Env.Closed.echoes (h : env.Closed) {A : Int → Prop} (hlow : Supply.first ≤ n)
    (hA : ∀ x ∈ env, x.scheme.body.Within A) (hbelow : ∀ v, A v → v < n) :
    (State.mk env [] ⟨n⟩ []).Echoes A .var env where
  low := hlow
  triangular := Subst.triangular_nil
  complete := fun _ hq => absurd hq List.not_mem_nil
  below := Subst.within_nil _
  solves := Subst.solves_nil _
  fixed := fun _ _ => rfl
  anchored := hbelow
  env := by
    refine List.forall₂_same.2 fun x hx => ⟨Equiv.refl Int, ?_, (h x hx).1, hA x hx,
      fun v => (h.mem_bound_iff hx).1, fun _ _ => rfl, fun v hv => hbelow v (hA x hx v hv),
      fun _ _ => rfl⟩
    rw [Scheme.relabel_eq_self (f := Equiv.refl Int) (fun _ _ => rfl) fun _ _ => rfl]

end States

/-! ### Instances of each other -/

/-- A type and the slots of a tree that are instances of others, and have those as instances, differ
from them by a renaming. -/
theorem exists_perm_of_mapSlots {T T' : Ty} {e e' : Expr} {θ η : Int → Ty}
    (hT : T.subst η = T') (hT' : T'.subst θ = T) (he : e.mapSlots (·.subst η) = e')
    (he' : e'.mapSlots (·.subst θ) = e) :
    ∃ π : Equiv.Perm Int, T'.relabel π = T ∧ e'.relabel π = e := by
  have htype : T'.subst (fun v => (θ v).subst η) = T' := by
    rw [← Ty.subst_subst, hT', hT]
  have htree : e'.mapSlots (fun t => t.subst fun v => (θ v).subst η) = e' := by
    have hboth := Expr.mapSlots_mapSlots (f := (·.subst θ)) (g := (·.subst η)) rfl e'
    simp only [Ty.subst_subst] at hboth
    rw [← hboth, he', he]
  have hback : ∀ v ∈ T'.vars ++ e'.slotVars, (θ v).subst η = .var v := by
    refine List.forall_mem_append.2 ⟨Ty.forall_of_subst_eq_self htype, fun v hv => ?_⟩
    obtain ⟨s, hs, hvs⟩ := List.mem_flatMap.1 hv
    have habsent : s.type.isAbsent = false := by
      cases hst : s.type with
      | absent =>
        rw [hst] at hvs
        exact absurd hvs List.not_mem_nil
      | _ => rfl
    exact Ty.forall_of_subst_eq_self (Expr.forall_of_mapSlots_eq_self htree s hs habsent) v hvs
  obtain ⟨π, hπ⟩ := exists_perm_of_subst hback
  rw [List.forall_mem_append] at hπ
  refine ⟨π, ?_, ?_⟩
  · rw [← hT']
    exact (Ty.subst_congr hπ.1).symm
  · rw [← he']
    refine Expr.mapSlots_congr fun s hs => (Ty.subst_congr fun v hv => ?_).symm
    exact hπ.2 v (List.mem_flatMap.2 ⟨s, hs, hv⟩)

/-! ### Two passes -/

section Passes

variable {env : Env} {root a e' : Expr} {st' : State} {t T : Ty} {n : Int}

theorem fills_of_done {st : State} (h : infer a st = done e' st' t) :
    a.Fills .declared (e'.mapSlots (·.apply st'.subst)) := by
  have hfills : a.Fills .declared (infer a st).tree := infer_fills a st
  rw [h] at hfills
  exact hfills.mapSlots st'.subst

/-- The first pass leaves a derivation, in which no type is missing. -/
theorem Expr.Ground.hasType (h : root.Ground) (henv : env.Closed)
    (hready : Ready root.bindings ⟨env, [], ⟨n⟩, []⟩)
    (hdone : infer root ⟨env, [], ⟨n⟩, []⟩ = done e' st' t) (hroom : NoWrap st'.trace) :
    HasType .filled env (e'.mapSlots (·.apply st'.subst)) (t.apply st'.subst) ∧
      ∀ s ∈ (e'.mapSlots (·.apply st'.subst)).slots, s.type.Complete := by
  constructor
  · have hreach : st'.Reaches (Open root.bindings ⟨env, [], ⟨n⟩, []⟩ st' t) st'.subst :=
      ⟨[], (List.append_nil _).symm, fun _ hq => absurd hq List.not_mem_nil, Subst.within_nil _⟩
    have hsound := Infers.sound root (infers_of_infer root _ hdone hroom) hready hreach
    rwa [henv.apply_eq] at hsound
  · have hbs : ∀ b ∈ root.bindings, b.Fits Ty.Complete := fun b hb => by
      obtain ⟨s, hs, hkind, hslot⟩ := Expr.exists_slot hb
      rw [Binding.Fits, ← hslot]
      exact (h s hs hkind).imp_right And.left
    have hstart : (State.mk env [] ⟨n⟩ []).Carries Ty.Complete :=
      ⟨fun x hx => (henv x hx).1, fun _ hq => absurd hq List.not_mem_nil⟩
    have hann := infer_annotates Ty.hereditary_complete root hstart hbs _ _ _ hdone
    exact (hann.nodes.mapSlots fun _ hn =>
      hn.mapSlots (Q := Ty.Complete) fun _ hu => hu.apply hann.state.types).forall_slots

/-- The second pass leaves a derivation of which the first one is an instance. -/
theorem HasType.exists_again (hT : HasType .filled env a T) (henv : env.Closed)
    (hslots : ∀ s ∈ a.slots, s.type.Complete) (hlow : Supply.first ≤ n)
    (hbelow : ∀ v ∈ a.slotVars ++ env.flatMap (·.scheme.body.vars), v < n)
    (hroom : NoWrap (infer a ⟨env, [], ⟨n⟩, []⟩).state.trace) :
    ∃ (e' : Expr) (st' : State) (t : Ty) (θ : Int → Ty) (π : Equiv.Perm Int),
      infer a ⟨env, [], ⟨n⟩, []⟩ = done e' st' t ∧
      HasType .filled (env.relabel π) (e'.mapSlots (·.apply st'.subst)) (t.apply st'.subst) ∧
      (t.apply st'.subst).subst θ = T ∧
      (e'.mapSlots (·.apply st'.subst)).mapSlots (·.subst θ) = a := by
  have hstart := henv.echoes hlow
    (fun x hx v hv => List.mem_append_right a.slotVars (List.mem_flatMap.2 ⟨x, hx, hv⟩)) hbelow
  have hbs : ∀ b ∈ a.bindings,
      b.Anchored (· ∈ a.slotVars ++ env.flatMap (·.scheme.body.vars)) := fun b hb => by
    obtain ⟨s, hs, -, hslot⟩ := Expr.exists_slot hb
    rw [Binding.Anchored, ← hslot]
    exact ⟨hslots s hs, fun v hv => List.mem_append_left _ (List.mem_flatMap.2 ⟨s, hs, hv⟩)⟩
  obtain ⟨e', st', t, hdone, θ, h⟩ := infer_retraces a hstart hbs hT hroom
  obtain ⟨π, hπ⟩ := exists_perm_of_subst fun v hv => h.echoes.subst_eval hv
  have hend : Concludes _ st' θ st'.subst θ π :=
    ⟨List.prefix_rfl, h.echoes.complete, h.echoes.solves, fun _ _ => rfl, hπ⟩
  refine ⟨e', st', t, θ, π, hdone, h.typed _ _ _ hend, ?_, ?_⟩
  · rw [h.echoes.solves.subst_apply, h.type]
  · rw [Expr.mapSlots_mapSlots rfl]
    simp only [h.echoes.solves.subst_apply]
    exact h.slots _ _ _ hend

/-- The first pass finds the most general derivation: every other one, up to a renaming of the
environment, is an instance of it. -/
theorem Env.Closed.exists_subst (henv : env.Closed)
    (hready : Ready root.bindings ⟨env, [], ⟨n⟩, []⟩)
    (hdone : infer root ⟨env, [], ⟨n⟩, []⟩ = done e' st' t) (hroom : NoWrap st'.trace)
    {π : Equiv.Perm Int} (hfills : root.Fills .declared a)
    (hT : HasType .filled (env.relabel π) a T) :
    ∃ η, (t.apply st'.subst).subst η = T ∧
      (e'.mapSlots (·.apply st'.subst)).mapSlots (·.subst η) = a := by
  have hroom' : NoWrap (infer root ⟨env, [], ⟨n⟩, []⟩).state.trace := by
    rwa [hdone]
  obtain ⟨e₁, st₁, t₁, hdone₁, η, hη, ht, he⟩ := infer_recovers root hready (Subst.solves_nil .var)
    (henv.image .var π).covers hfills hT hroom'
  obtain ⟨rfl, rfl, rfl⟩ := done_inj.1 (hdone.symm.trans hdone₁)
  refine ⟨η, ?_, ?_⟩
  · rw [hη.solves.subst_apply, ht]
  · rw [Expr.mapSlots_mapSlots rfl]
    simp only [hη.solves.subst_apply]
    exact he η fun _ _ _ => rfl

end Passes

namespace Context

variable {ctx ctx' : Context} {env : Env} {root e' : Expr} {g : Supply} {st' : State} {t T : Ty}

theorem given_infer_of_done (hg : ctx.passSupply env root = .ok g) (hroot : root.isAbsent = false)
    (h : LetPoly.infer root ⟨env, [], g, []⟩ = done e' st' t) :
    (ctx.infer env root).given = e'.mapSlots (·.apply st'.subst) := by
  rw [infer_eq_conclude hg hroot, h]
  rfl

/-- **Inference is stable.** If a pass finds a type, a second one on the tree that the first has
annotated, in the same environment, finds a type too. The type and all slots are those of the first
pass, up to one renaming of the ids. -/
theorem infer_again (hctx : ctx.supply = none) (hctx' : ctx'.supply = none) (henv : env.Closed)
    (hroot : root.Ground) (h : (ctx.infer env root).verdict = .inferred T)
    (hroom : ctx.HasRoom env root) (hroom' : ctx'.HasRoom env (ctx.infer env root).given) :
    ∃ (T' : Ty) (π : Equiv.Perm Int),
      (ctx'.infer env (ctx.infer env root).given).verdict = .inferred T' ∧ T'.relabel π = T ∧
      (ctx'.infer env (ctx.infer env root).given).given.relabel π = (ctx.infer env root).given := by
  have hu := unknown?_of_inferred hctx h
  have hg := passSupply_eq hctx hu hroom.start
  obtain ⟨hne, e', st', t, hdone⟩ := exists_done hg h
  have hready := hroot.ready henv (env.first_le_maxVar root) fun x hx v hv =>
    env.lt_maxVar root v (List.mem_append_right _ (List.mem_flatMap.2 ⟨x, hx, hv⟩))
  have hdraws := hroom.draws
  rw [trace_infer hg hne, hdone] at hdraws
  obtain ⟨hT, hslots⟩ := hroot.hasType henv hready hdone hdraws
  have hfills := fills_of_done hdone
  obtain rfl : t.apply st'.subst = T :=
    Verdict.inferred.inj ((infer_of_done hg hne hdone).1.symm.trans h)
  rw [given_infer_of_done hg hne hdone] at hroom' ⊢
  -- The second pass, on the tree `a` that the first one leaves.
  set a := e'.mapSlots (·.apply st'.subst)
  have hg' := passSupply_eq hctx' (hfills.unknown?.trans hu) hroom'.start
  have hne' : a.isAbsent = false := hfills.isAbsent.trans hne
  have hdraws' := hroom'.draws
  rw [trace_infer hg' hne'] at hdraws'
  obtain ⟨e'', st'', t', θ, π, hdone', hT', htype, htree⟩ :=
    hT.exists_again henv hslots (env.first_le_maxVar a) (env.lt_maxVar a) hdraws'
  obtain ⟨η, htype', htree'⟩ :=
    henv.exists_subst hready hdone hdraws (hfills.trans (fills_of_done hdone')) hT'
  obtain ⟨π', hπ⟩ := exists_perm_of_mapSlots htype' htype htree' htree
  refine ⟨_, π', (infer_of_done hg' hne' hdone').1, hπ.1, ?_⟩
  rw [given_infer_of_done hg' hne' hdone']
  exact hπ.2

/-- A closed environment with a function of two arguments. -/
def closedPairEnv : Env :=
  [⟨"pair", ⟨VarSet.ofList [0, 1], .arrow [.var 0, .var 1] (.tuple [.var 0, .var 1])⟩⟩]

/-- A function with a definition inside that has the type of its argument, applied, and passed on in
a pair that is taken apart. -/
def twinParts : Expr :=
  .letRec ⟨"twin", .absent⟩ [⟨"x", .absent⟩]
    (.letIn ⟨"y", .absent⟩ (.var "x") (.tuple [.var "y", .var "x"]))
    (.letTuple [⟨"p", .absent⟩, ⟨"q", .absent⟩]
      (.app (.var "pair") [.app (.var "twin") [.int 1] .absent, .var "twin"] .absent)
      (.tuple [.var "p", .var "q", .var "twin"]))

/-- The type found has two variables of its own, and the slots share two more. -/
theorem infer_again_twinParts :
    ((fresh none).infer closedPairEnv twinParts).verdict =
        .inferred (.tuple [.tuple [.int, .int], .arrow [.var 13] (.tuple [.var 13, .var 13]),
          .arrow [.var 14] (.tuple [.var 14, .var 14])]) ∧
      ∃ (T' : Ty) (π : Equiv.Perm Int),
        ((fresh none).infer closedPairEnv
            ((fresh none).infer closedPairEnv twinParts).given).verdict = .inferred T' ∧
        T'.relabel π = .tuple [.tuple [.int, .int], .arrow [.var 13] (.tuple [.var 13, .var 13]),
          .arrow [.var 14] (.tuple [.var 14, .var 14])] ∧
        ((fresh none).infer closedPairEnv
            ((fresh none).infer closedPairEnv twinParts).given).given.relabel π =
          ((fresh none).infer closedPairEnv twinParts).given := by
  have h : ((fresh none).infer closedPairEnv twinParts).verdict =
      .inferred (.tuple [.tuple [.int, .int], .arrow [.var 13] (.tuple [.var 13, .var 13]),
        .arrow [.var 14] (.tuple [.var 14, .var 14])]) := by
    cbv
  have hroom : (fresh none).HasRoom closedPairEnv twinParts :=
    ⟨by decide, noWrap_iff.2 (by cbv)⟩
  have hroom' : (fresh none).HasRoom closedPairEnv
      ((fresh none).infer closedPairEnv twinParts).given :=
    ⟨by cbv, noWrap_iff.2 (by cbv)⟩
  exact ⟨h, infer_again rfl rfl (by decide) (by decide) h hroom hroom'⟩

end Context

end LetPoly
