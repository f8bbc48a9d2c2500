import LetPoly.Proofs.Runs
import LetPoly.Proofs.Typing
import LetPoly.Proofs.Unification

/-!
# What the steps of inference touch

Inference goes wrong if two parts of a program share a variable by accident. This file states which
states are free of such accidents, and what a step may change: it may bind or mention the variables
that are live in the environment, those that the part of the tree at hand has in its slots, and
fresh ones. In particular it never touches a quantified variable.

## Main definitions

* `State.Regular`: the substitution is triangular, all ids are below the supply, and quantified ids
  are neither live nor bound by the substitution.
* `State.Extends`: a later state, in the same scope, that has learned something about the variables
  in a given zone and about no others.
* `State.Confines`: a type whose resolved variables lie in a zone.
* `State.Current`: the environment is up to date with the substitution.

## Main results

* `Supply.freshList_eq`: ids are handed out one after the other.
* `State.Extends.trans`, `State.Extends.leave`: extensions compose, and reach out of inner scopes.
* `State.Regular.unify`, `State.Regular.refresh`, `State.Regular.bind`: the steps of inference.
-/

namespace LetPoly

/-! ### Fresh ids -/

namespace Supply

/-- The smallest id. -/
def first : Int := -0x8000000000000000

/-- Without overflow the next id is one larger. -/
theorem succ_eq {v : Int} (hlow : first ≤ v) (hroom : v < last) : succ v = v + 1 := by
  rw [first] at hlow
  rw [last] at hroom
  exact Int.bmod_eq_of_le (by omega) (by omega)

theorem freshList_succ (g : Supply) (k : Nat) :
    g.freshList (k + 1) = (g.next :: (g.fresh.2.freshList k).1, (g.fresh.2.freshList k).2) :=
  rfl

theorem length_freshList (g : Supply) (k : Nat) : (g.freshList k).1.length = k := by
  induction k generalizing g with
  | zero => rfl
  | succ k ih => exact congrArg (· + 1) (ih g.fresh.2)

/-- Ids drawn in two goes are those drawn in one. -/
theorem freshList_add (g : Supply) (j k : Nat) :
    g.freshList (j + k) = ((g.freshList j).1 ++ ((g.freshList j).2.freshList k).1,
      ((g.freshList j).2.freshList k).2) := by
  induction j generalizing g with
  | zero => rw [Nat.zero_add, freshList, List.nil_append]
  | succ j ih => rw [Nat.add_right_comm, freshList_succ, ih, freshList_succ, List.cons_append]

/-- So many ids, one after the other. -/
def idsFrom (n : Int) : Nat → List Int
  | 0 => []
  | k + 1 => n :: idsFrom (n + 1) k

theorem mem_idsFrom {n v : Int} {k : Nat} : v ∈ idsFrom n k ↔ n ≤ v ∧ v < n + k := by
  induction k generalizing n with
  | zero =>
    simp only [idsFrom, List.not_mem_nil, false_iff]
    omega
  | succ k ih =>
    rw [idsFrom, List.mem_cons, ih]
    omega

theorem nodup_idsFrom (n : Int) (k : Nat) : (idsFrom n k).Nodup := by
  induction k generalizing n with
  | zero => exact List.nodup_nil
  | succ k ih =>
    refine List.nodup_cons.2 ⟨fun hn => ?_, ih (n + 1)⟩
    have := mem_idsFrom.1 hn
    omega

/-- Without overflow the ids drawn are consecutive. -/
theorem freshList_eq {g : Supply} {k : Nat} (hlow : first ≤ g.next)
    (hroom : ∀ v ∈ (g.freshList k).1, v < last) :
    g.freshList k = (idsFrom g.next k, ⟨g.next + k⟩) := by
  induction k generalizing g with
  | zero => simp [freshList, idsFrom]
  | succ k ih =>
    rw [freshList_succ, List.forall_mem_cons] at hroom
    have hsucc : g.fresh.2 = ⟨g.next + 1⟩ := congrArg mk (succ_eq hlow hroom.1)
    have hnext : g.next + 1 + (k : Int) = g.next + (k + 1 : Nat) := by omega
    rw [hsucc] at hroom
    rw [freshList_succ, hsucc, ih (Int.le_add_one hlow) hroom.2, idsFrom, hnext]

end Supply

namespace Scheme

/-- The ids from `n` on as new names for the variables in a list. -/
def freshNames (n : Int) (vs : List Int) (v : Int) : Ty :=
  if v ∈ vs then .var (n + vs.idxOf v) else .var v

/-- Renaming one after the other is renaming all at once, since no fresh id is renamed again. -/
theorem refresh_eq (vs : List Int) (t : Ty) (g : Supply) (hnodup : vs.Nodup)
    (hlt : ∀ v ∈ vs, v < g.next) (hlow : Supply.first ≤ g.next)
    (hroom : ∀ v ∈ (g.freshList vs.length).1, v < Supply.last) :
    refresh vs t g = (t.subst (freshNames g.next vs), ⟨g.next + vs.length⟩) := by
  induction vs generalizing t g with
  | nil =>
    have hid : t.subst (freshNames g.next []) = t :=
      Ty.subst_eq_self fun v _ => by simp [freshNames]
    simp [refresh, hid]
  | cons v vs ih =>
    rw [List.nodup_cons] at hnodup
    rw [List.forall_mem_cons] at hlt
    obtain ⟨hroom₀, hroom⟩ := List.forall_mem_cons.1 hroom
    have hsucc : Supply.after g.next = ⟨g.next + 1⟩ :=
      congrArg Supply.mk (Supply.succ_eq hlow hroom₀)
    have hlt' : ∀ w ∈ vs, w < g.next + 1 := fun w hw => by
      have := hlt.2 w hw
      omega
    rw [hsucc] at hroom
    change refresh vs (t.rename v g.next) (Supply.after g.next) = _
    rw [hsucc, ih _ ⟨g.next + 1⟩ hnodup.2 hlt' (Int.le_add_one hlow) hroom, Ty.rename, Ty.replace,
      Ty.subst_subst]
    refine Prod.ext (Ty.subst_congr fun w _ => ?_) ?_
    · have hfresh : g.next ∉ vs := fun h => Int.lt_irrefl _ (hlt.2 _ h)
      by_cases hw : w = v
      · subst hw
        simp [Ty.single, freshNames, hfresh]
      · by_cases hmem : w ∈ vs
        · rw [Ty.single, if_neg hw, Ty.subst_var, freshNames, freshNames, if_pos hmem,
            if_pos (List.mem_cons_of_mem _ hmem), List.idxOf_cons_ne vs (Ne.symm hw)]
          congr 1
          push_cast
          omega
        · simp [Ty.single, freshNames, hw, hmem]
    · simp only [List.length_cons, Supply.mk.injEq]
      push_cast
      omega

end Scheme

/-! ### Regular states -/

namespace State

/-- The id is free in the environment under the substitution of the state. -/
def Live (st : State) (v : Int) : Prop :=
  st.env.Live st.subst v

/-- A state in which variables do not clash. -/
structure Regular (st : State) : Prop where
  low : Supply.first ≤ st.supply.next
  triangular : st.subst.Triangular
  complete : st.subst.Complete
  below : st.subst.Within (· < st.supply.next)
  bodies : ∀ x ∈ st.env, x.scheme.body.Complete ∧ x.scheme.body.Within (· < st.supply.next)
  /-- Quantified ids are out of reach. -/
  bounds : ∀ v, st.env.Bounds v → v < st.supply.next ∧ ¬ st.Live v ∧ ∀ q ∈ st.subst, q.var ≠ v

namespace Regular

variable {st : State} {v : Int}

theorem freeVars_lt (hr : st.Regular) (h : v ∈ st.env.freeVars) : v < st.supply.next := by
  obtain ⟨x, hx, hv⟩ := Env.mem_freeVars.1 h
  exact (hr.bodies x hx).2 v (Scheme.mem_freeVars.1 hv).1

theorem live_lt (hr : st.Regular) (h : st.Live v) : v < st.supply.next := by
  obtain ⟨u, hu, hv⟩ := h
  rcases Ty.mem_vars_apply hv with huv | ⟨q, hq, hvq⟩
  · exact Ty.mem_vars_var.1 huv ▸ hr.freeVars_lt hu
  · exact (hr.below q hq).2 v hvq

theorem ne_of_live (hr : st.Regular) (h : st.Live v) : ∀ q ∈ st.subst, q.var ≠ v := by
  obtain ⟨u, -, hv⟩ := h
  exact fun q hq e => hr.triangular.not_mem_vars_apply (.var u) q hq (e ▸ hv)

theorem not_bounds_of_live (hr : st.Regular) (h : st.Live v) : ¬ st.env.Bounds v :=
  fun hb => (hr.bounds v hb).2.1 h

/-- A free variable of the environment is live unless the substitution binds it. -/
theorem live_of_mem_freeVars (h : v ∈ st.env.freeVars) (hv : ∀ q ∈ st.subst, q.var ≠ v) :
    st.Live v := by
  refine ⟨v, h, ?_⟩
  rw [Subst.eval_of_forall_ne hv, Ty.mem_vars_var]

theorem mem_freeVars_apply (hr : st.Regular) :
    v ∈ (st.env.apply st.subst).freeVars ↔ st.Live v :=
  Env.mem_freeVars_apply (fun q hq hb => (hr.bounds _ hb).2.2 q hq rfl)
    fun _ hv => hr.not_bounds_of_live hv

/-- What the state has resolved stays resolved. -/
theorem apply_apply (hr : st.Regular) {F : Subst} (hF : st.subst <+: F) (t : Ty) :
    (t.apply st.subst).apply F = t.apply F := by
  obtain ⟨D, rfl⟩ := hF
  exact hr.triangular.apply_apply D t

/-- The scheme of an entry after the substitution. -/
theorem scheme_apply_eq (hr : st.Regular) {x : Entry} (hx : x ∈ st.env) :
    x.scheme.apply st.subst = ⟨x.scheme.bound, x.scheme.body.apply st.subst⟩ :=
  Scheme.apply_eq fun q hq hb => (hr.bounds _ ⟨x, hx, hb⟩).2.2 q hq rfl

end Regular

end State

theorem Env.live_append {env : Env} {s d : Subst} {v : Int} :
    env.Live (s ++ d) v ↔ ∃ w, env.Live s w ∧ v ∈ (d.eval w).vars := by
  simp only [Env.Live, Subst.eval_append, Ty.apply_eq_subst (s := d), Ty.mem_vars_subst]
  constructor
  · rintro ⟨u, hu, w, hw, hv⟩
    exact ⟨w, ⟨u, hu, hw⟩, hv⟩
  · rintro ⟨w, ⟨u, hu, hw⟩, hv⟩
    exact ⟨u, hu, w, hw, hv⟩

/-- A variable that a substitution puts in place of another one is that one, or stands on the right
of an equation. -/
theorem Subst.mem_vars_eval {d : Subst} {v w : Int} (h : v ∈ (d.eval w).vars) :
    v = w ∨ ∃ q ∈ d, v ∈ q.type.vars := by
  rcases Ty.mem_vars_apply h with hv | hq
  · exact .inl (Ty.mem_vars_var.1 hv)
  · exact .inr hq

namespace State

/-! ### Extensions -/

/-- The state `st'` belongs to the same scope as `st` and comes later: its substitution has grown by
equations about variables in the zone `P`, and its environment may have been brought up to date. -/
structure Extends (st : State) (P : Int → Prop) (st' : State) : Prop where
  regular : st'.Regular
  next_le : st.supply.next ≤ st'.supply.next
  env_apply : st'.env.apply st'.subst = st.env.apply st'.subst
  grown : ∃ D, st'.subst = st.subst ++ D ∧ D.Within fun v => P v ∧ ¬ st.env.Bounds v

namespace Extends

variable {st st₁ st₂ : State} {P Q : Int → Prop} {v : Int}

theorem refl (hr : st.Regular) : st.Extends P st :=
  ⟨hr, Int.le_refl _, rfl, [], (List.append_nil _).symm, Subst.within_nil _⟩

theorem mono (h : st.Extends P st₁) (hPQ : ∀ v, P v → Q v) : st.Extends Q st₁ := by
  obtain ⟨D, hs, hD⟩ := h.grown
  exact ⟨h.regular, h.next_le, h.env_apply, D, hs, hD.mono fun v hv => ⟨hPQ v hv.1, hv.2⟩⟩

/-- The scope stays the same. -/
theorem bounds_iff (h : st.Extends P st₁) : st₁.env.Bounds v ↔ st.env.Bounds v := by
  rw [← Env.bounds_apply (s := st₁.subst), h.env_apply, Env.bounds_apply]

theorem trans (h : st.Extends P st₁) (h' : st₁.Extends P st₂) : st.Extends P st₂ := by
  obtain ⟨D, hs, hD⟩ := h.grown
  obtain ⟨D', hs', hD'⟩ := h'.grown
  refine ⟨h'.regular, Int.le_trans h.next_le h'.next_le, ?_, D ++ D', ?_, ?_⟩
  · rw [h'.env_apply, hs', Env.apply_append, h.env_apply, ← Env.apply_append]
  · rw [hs', hs, List.append_assoc]
  · exact Subst.within_append.2
      ⟨hD, hD'.mono fun v hv => ⟨hv.1, fun hb => hv.2 (h.bounds_iff.2 hb)⟩⟩

theorem subst_isPrefix (h : st.Extends P st₁) : st.subst <+: st₁.subst := by
  obtain ⟨D, hs, -⟩ := h.grown
  exact ⟨D, hs.symm⟩

/-- From the later state on, the two environments mean the same. -/
theorem apply_env (h : st.Extends P st₁) {F : Subst} (hF : st₁.subst <+: F) :
    st₁.env.apply F = st.env.apply F := by
  obtain ⟨D, rfl⟩ := hF
  rw [Env.apply_append, h.env_apply, ← Env.apply_append]

/-- What is live later can be computed from the environment as it was. -/
theorem live_iff (hr : st.Regular) (h : st.Extends P st₁) :
    st₁.Live v ↔ st.env.Live st₁.subst v := by
  obtain ⟨D, hs, hD⟩ := h.grown
  rw [← h.regular.mem_freeVars_apply, h.env_apply]
  refine Env.mem_freeVars_apply (fun q hq hb => ?_) fun w hw => ?_
  · exact (h.regular.bounds _ (h.bounds_iff.2 hb)).2.2 q hq rfl
  · rw [hs, Env.live_append] at hw
    obtain ⟨u, hu, hwu⟩ := hw
    rcases Subst.mem_vars_eval hwu with rfl | ⟨q, hq, hwq⟩
    · exact hr.not_bounds_of_live hu
    · exact ((hD q hq).2 w hwq).2

/-- What is live later was live before or lies in the zone. -/
theorem live_or (hr : st.Regular) (h : st.Extends P st₁) (hv : st₁.Live v) : st.Live v ∨ P v := by
  obtain ⟨D, hs, hD⟩ := h.grown
  rw [h.live_iff hr, hs, Env.live_append] at hv
  obtain ⟨u, hu, hvu⟩ := hv
  rcases Subst.mem_vars_eval hvu with rfl | ⟨q, hq, hvq⟩
  · exact .inl hu
  · exact .inr ((hD q hq).2 v hvq).1

/-- What was live stays live unless it has been bound since. -/
theorem live_of_live (hr : st.Regular) (h : st.Extends P st₁) (hv : st.Live v)
    (hne : ∀ q ∈ st₁.subst, q.var ≠ v) : st₁.Live v := by
  obtain ⟨D, hs, -⟩ := h.grown
  rw [h.live_iff hr, hs, Env.live_append]
  refine ⟨v, hv, ?_⟩
  rw [Subst.eval_of_forall_ne fun q hq => hne q (hs ▸ List.mem_append_right _ hq), Ty.mem_vars_var]

end Extends

/-! ### Types in a zone -/

/-- The type is complete, and once resolved its variables are ids of the zone `P` that have been
handed out. -/
def Confines (st : State) (P : Int → Prop) (t : Ty) : Prop :=
  t.Complete ∧ (t.apply st.subst).Within fun v => P v ∧ v < st.supply.next

namespace Confines

variable {st st₁ : State} {P Q : Int → Prop} {t : Ty}

theorem const (n : String) : st.Confines P (.const n) :=
  ⟨Ty.complete_const n, by
    rw [Ty.apply_const]
    exact fun _ hv => absurd hv List.not_mem_nil⟩

theorem arrow {ts : List Ty} (hts : ∀ s ∈ ts, st.Confines P s) (ht : st.Confines P t) :
    st.Confines P (.arrow ts t) := by
  refine ⟨Ty.complete_arrow.2 ⟨fun s hs => (hts s hs).1, ht.1⟩, ?_⟩
  rw [Ty.apply_arrow]
  exact Ty.Within.arrow (List.forall_mem_map.2 fun s hs => (hts s hs).2) ht.2

theorem tuple {ts : List Ty} (hts : ∀ s ∈ ts, st.Confines P s) : st.Confines P (.tuple ts) := by
  refine ⟨Ty.complete_tuple.2 fun s hs => (hts s hs).1, ?_⟩
  rw [Ty.apply_tuple]
  exact Ty.Within.tuple (List.forall_mem_map.2 fun s hs => (hts s hs).2)

theorem of_tuple {ts : List Ty} (h : st.Confines P (.tuple ts)) : ∀ s ∈ ts, st.Confines P s := by
  intro s hs
  refine ⟨Ty.complete_tuple.1 h.1 s hs, fun v hv => h.2 v ?_⟩
  rw [Ty.apply_tuple]
  exact Ty.mem_vars_tuple.2 ⟨_, List.mem_map_of_mem hs, hv⟩

theorem mono (h : st.Confines P t) (hPQ : ∀ v, P v → Q v) : st.Confines Q t :=
  ⟨h.1, h.2.mono fun v hv => ⟨hPQ v hv.1, hv.2⟩⟩

/-- A type stays in a zone as long as nothing outside the zone is touched. -/
theorem after (h : st.Confines P t) (he : st.Extends P st₁) : st₁.Confines P t := by
  obtain ⟨D, hs, hD⟩ := he.grown
  refine ⟨h.1, ?_⟩
  have hbelow : D.Within (· < st₁.supply.next) :=
    (Subst.within_append.1 (hs ▸ he.regular.below)).2
  rw [hs, Ty.apply_append]
  exact Ty.Within.apply (h.2.mono fun v hv => ⟨hv.1, Int.lt_of_lt_of_le hv.2 he.next_le⟩)
    ((hD.mono fun v hv => hv.1).and hbelow)

/-- Resolving a type changes nothing for the zone. -/
theorem apply (hr : st.Regular) (h : st.Confines P t) : st.Confines P (t.apply st.subst) := by
  have hself := hr.triangular.apply_apply [] t
  rw [List.append_nil] at hself
  exact ⟨h.1.apply hr.complete, hself.symm ▸ h.2⟩

/-- Only the substitution and the supply count. -/
theorem congr (h : st.Confines P t) (hs : st₁.subst = st.subst)
    (hn : st.supply.next ≤ st₁.supply.next) : st₁.Confines P t :=
  ⟨h.1, hs ▸ h.2.mono fun _ hv => ⟨hv.1, Int.lt_of_lt_of_le hv.2 hn⟩⟩

end Confines

/-! ### Unification steps -/

section Unify

variable {st st' : State} {P : Int → Prop} {a b : Ty}

theorem unify_eq (h : st.unify a b = (st', none)) :
    ∃ D, Solved [⟨a.apply st.subst, b.apply st.subst⟩] D ∧ st'.subst = st.subst ++ D ∧
      st'.env = st.env ∧ st'.supply = st.supply := by
  simp only [unify] at h
  split at h
  · exact absurd (congrArg Prod.snd h) (by simp)
  · rename_i hf
    obtain rfl := congrArg Prod.fst h
    exact ⟨_, solved_of_solve _ hf, rfl, rfl, rfl⟩

theorem subst_isPrefix_unify (h : st.unify a b = (st', none)) : st.subst <+: st'.subst := by
  obtain ⟨D, -, hs, -, -⟩ := unify_eq h
  exact ⟨D, hs.symm⟩

/-- From a unification step on, the two types stay alike. -/
theorem apply_eq_of_unify (h : st.unify a b = (st', none)) {F : Subst} (hF : st'.subst <+: F) :
    a.apply F = b.apply F := by
  obtain ⟨D, rfl⟩ := hF
  obtain ⟨D₁, hsolved, hs, -, -⟩ := unify_eq h
  have heq : (a.apply st.subst).apply D₁ = (b.apply st.subst).apply D₁ :=
    hsolved.apply_eq _ List.mem_cons_self
  simp only [hs, Ty.apply_append, heq]

/-- The types that a unification step makes alike are resolved first, so the equations it adds
mention nothing that is bound already. -/
theorem triangular_unify (ht : st.subst.Triangular) (a b : Ty) :
    (st.unify a b).1.subst.Triangular := by
  simp only [State.unify]
  split
  · exact ht
  · rename_i hf
    have hsolved := solved_of_solve _ hf
    refine ht.append hsolved.triangular
      (hsolved.within (List.forall_mem_singleton.2 ⟨fun v hv q hq e => ?_, fun v hv q hq e => ?_⟩))
    · exact ht.not_mem_vars_apply a q hq (e ▸ hv)
    · exact ht.not_mem_vars_apply b q hq (e ▸ hv)

/-- A unification step only learns about variables of the types it makes alike. -/
theorem Regular.unify (hr : st.Regular) (hP : ∀ v, P v → ¬ st.env.Bounds v) (ha : st.Confines P a)
    (hb : st.Confines P b) (h : st.unify a b = (st', none)) : st.Extends P st' := by
  obtain ⟨D, hsolved, hs, henv, hsup⟩ := unify_eq h
  have hD : D.Within fun v => P v ∧ v < st.supply.next :=
    hsolved.within (List.forall_mem_singleton.2 ⟨ha.2, hb.2⟩)
  have hcomplete : D.Complete := hsolved.complete (List.forall_mem_singleton.2
    ⟨ha.1.apply hr.complete, hb.1.apply hr.complete⟩)
  refine ⟨⟨?_, ?_, ?_, ?_, ?_, ?_⟩, ?_, ?_, D, hs, ?_⟩
  · exact hsup ▸ hr.low
  · have htriangular := triangular_unify hr.triangular a b
    rwa [h] at htriangular
  · exact hs ▸ Subst.complete_append.2 ⟨hr.complete, hcomplete⟩
  · rw [hs, hsup]
    exact Subst.within_append.2 ⟨hr.below, hD.mono fun v hv => hv.2⟩
  · rw [henv, hsup]
    exact hr.bodies
  · intro v hv
    rw [henv] at hv
    obtain ⟨hlt, hlive, hne⟩ := hr.bounds v hv
    rw [Live, henv, hsup, hs, Env.live_append, List.forall_mem_append]
    refine ⟨hlt, ?_, hne, fun q hq e => hP _ (hD q hq).1.1 (e ▸ hv)⟩
    rintro ⟨w, hw, hvw⟩
    rcases Subst.mem_vars_eval hvw with rfl | ⟨q, hq, hvq⟩
    · exact hlive hw
    · exact hP v ((hD q hq).2 v hvq).1 hv
  · exact hsup ▸ Int.le_refl _
  · rw [henv]
  · exact hD.mono fun v hv => ⟨hv.1, hP v hv.1⟩

/-- Unification after other steps in the same zone. -/
theorem Extends.unify {st₁ : State} (he : st.Extends P st₁) (hP : ∀ v, P v → ¬ st.env.Bounds v)
    (ha : st₁.Confines P a) (hb : st₁.Confines P b) (h : st₁.unify a b = (st', none)) :
    st₁.Extends P st' :=
  he.regular.unify (fun v hv hb => hP v hv (he.bounds_iff.1 hb)) ha hb h

end Unify

/-! ### Steps that draw fresh ids -/

/-- A larger supply does no harm. -/
theorem Regular.raise {st st' : State} (hr : st.Regular) (henv : st'.env = st.env)
    (hs : st'.subst = st.subst) (hn : st.supply.next ≤ st'.supply.next) : st'.Regular := by
  refine ⟨Int.le_trans hr.low hn, hs ▸ hr.triangular, hs ▸ hr.complete, ?_, ?_, ?_⟩
  · exact hs ▸ hr.below.mono fun v hv => Int.lt_of_lt_of_le hv hn
  · rw [henv]
    exact fun x hx => ⟨(hr.bodies x hx).1,
      (hr.bodies x hx).2.mono fun v hv => Int.lt_of_lt_of_le hv hn⟩
  · intro v hv
    rw [henv] at hv
    obtain ⟨hlt, hlive, hne⟩ := hr.bounds v hv
    rw [Live, henv, hs]
    exact ⟨Int.lt_of_lt_of_le hlt hn, hlive, hne⟩

theorem Extends.raise {st st' : State} {P : Int → Prop} (hr : st.Regular)
    (henv : st'.env = st.env) (hs : st'.subst = st.subst)
    (hn : st.supply.next ≤ st'.supply.next) : st.Extends P st' :=
  ⟨hr.raise henv hs hn, hn, by rw [henv], [], by rw [hs, List.append_nil], Subst.within_nil _⟩

section Draw

variable {st : State}

theorem next_freshVar (hr : st.Regular) (hroom : st.supply.next < Supply.last) :
    st.freshVar.2.supply.next = st.supply.next + 1 :=
  Supply.succ_eq hr.low hroom

theorem Regular.freshVar {P : Int → Prop} (hr : st.Regular)
    (hroom : st.supply.next < Supply.last) : st.Extends P st.freshVar.2 := by
  refine Extends.raise hr rfl rfl ?_
  rw [next_freshVar hr hroom]
  omega

/-- An id that the substitution does not mention is its own resolved type. -/
theorem Regular.eval_of_le (hr : st.Regular) {v : Int} (h : st.supply.next ≤ v) :
    st.subst.eval v = .var v :=
  Subst.eval_of_forall_ne fun q hq e => by
    have := (hr.below q hq).1
    omega

theorem Confines.freshVar {P : Int → Prop} (hr : st.Regular) (hroom : st.supply.next < Supply.last)
    (hP : P st.supply.next) : st.freshVar.2.Confines P st.freshVar.1 := by
  have heval : st.freshVar.1.apply st.freshVar.2.subst = .var st.supply.next :=
    hr.eval_of_le (Int.le_refl _)
  refine ⟨Ty.complete_var _, ?_⟩
  rw [heval]
  intro v hv
  rw [Ty.mem_vars_var.1 hv, next_freshVar hr hroom]
  exact ⟨hP, Int.lt_add_one_of_le (Int.le_refl _)⟩

/-- The instance of a scheme has fresh variables for the quantified ones. -/
theorem instantiate_eq {σ : Scheme} (hlow : Supply.first ≤ st.supply.next)
    (hlt : ∀ v ∈ σ.bound.ids, v < st.supply.next)
    (hroom : ∀ v ∈ (st.supply.freshList σ.bound.size).1, v < Supply.last) :
    (st.instantiate σ).1 = σ.inst (fun v => .var (st.supply.next + σ.bound.ids.idxOf v)) .var ∧
      (st.instantiate σ).2.supply.next = st.supply.next + σ.bound.size := by
  have h := Scheme.refresh_eq σ.bound.ids σ.body st.supply σ.bound.nodup hlt hlow hroom
  exact ⟨congrArg Prod.fst h, congrArg (fun p => p.2.next) h⟩

theorem Regular.instantiate_eq (hr : st.Regular) {x : String} {σ : Scheme} (hx : ⟨x, σ⟩ ∈ st.env)
    (hroom : ∀ v ∈ (st.supply.freshList σ.bound.size).1, v < Supply.last) :
    (st.instantiate σ).1 = σ.inst (fun v => .var (st.supply.next + σ.bound.ids.idxOf v)) .var ∧
      (st.instantiate σ).2.supply.next = st.supply.next + σ.bound.size :=
  State.instantiate_eq hr.low (fun v hv => (hr.bounds v ⟨_, hx, hv⟩).1) hroom

end Draw

/-! ### Changes of scope -/

/-- A state with fewer entries stays regular. -/
theorem Regular.of_env {st st' : State} (hr : st.Regular) (hs : st'.subst = st.subst)
    (hsup : st'.supply = st.supply) (henv : ∀ x ∈ st'.env, x ∈ st.env) : st'.Regular := by
  have hfree : ∀ v, v ∈ st'.env.freeVars → v ∈ st.env.freeVars := by
    intro v hv
    obtain ⟨x, hx, hvx⟩ := Env.mem_freeVars.1 hv
    exact Env.mem_freeVars.2 ⟨x, henv x hx, hvx⟩
  refine ⟨hsup ▸ hr.low, hs ▸ hr.triangular, hs ▸ hr.complete, ?_, ?_, ?_⟩
  · rw [hs, hsup]
    exact hr.below
  · rw [hsup]
    exact fun x hx => hr.bodies x (henv x hx)
  · rintro v ⟨x, hx, hv⟩
    obtain ⟨hlt, hlive, hne⟩ := hr.bounds v ⟨x, henv x hx, hv⟩
    rw [Live, hs, hsup]
    exact ⟨hlt, fun ⟨u, hu, hvu⟩ => hlive ⟨u, hfree u hu, hvu⟩, hne⟩

theorem leave?_eq_some {st st' : State} {n : Nat} :
    st.leave? n = some st' ↔ n ≤ st.env.length ∧ { st with env := st.env.drop n } = st' := by
  have key : ∀ (n : Nat) (env : Env),
      env.popMany? n = if n ≤ env.length then some (env.drop n) else none := by
    intro n
    induction n with
    | zero => exact fun env => by simp [Env.popMany?]
    | succ n ih =>
      intro env
      cases env with
      | nil => rfl
      | cons x env => simpa [Env.popMany?, Env.pop?] using ih env
  rw [leave?, key]
  by_cases h : n ≤ st.env.length <;> simp [h]

/-- What was learned in an inner scope is known outside of it. -/
theorem Extends.leave {st st₁ st₂ st' : State} {P : Int → Prop} {xs : Env} {n : Nat}
    (h : st₁.Extends P st₂) (hl : st₂.leave? n = some st') (henv : st₁.env = xs ++ st.env)
    (hlen : xs.length = n) (hs : st₁.subst = st.subst)
    (hn : st.supply.next ≤ st₁.supply.next) : st.Extends P st' := by
  obtain ⟨-, rfl⟩ := leave?_eq_some.1 hl
  obtain ⟨D, hD, hwithin⟩ := h.grown
  refine ⟨h.regular.of_env rfl rfl fun x hx => List.mem_of_mem_drop hx,
    Int.le_trans hn h.next_le, ?_, D, hs ▸ hD, hwithin.mono fun v hv => ⟨hv.1, ?_⟩⟩
  · have happly := congrArg (List.drop n) h.env_apply
    simp only [Env.apply, henv, ← List.map_drop, List.drop_left' hlen] at happly
    exact happly
  · rintro ⟨x, hx, hvx⟩
    exact hv.2 ⟨x, henv ▸ List.mem_append_right _ hx, hvx⟩

/-- A scope that was entered can be left. -/
theorem Extends.exists_leave {st₁ st₂ : State} {P : Int → Prop} {n : Nat} (h : st₁.Extends P st₂)
    (hlen : n ≤ st₁.env.length) : ∃ st', st₂.leave? n = some st' := by
  have heq : st₂.env.length = st₁.env.length := by
    simpa [Env.apply] using congrArg List.length h.env_apply
  exact ⟨_, leave?_eq_some.2 ⟨heq ▸ hlen, rfl⟩⟩

section Push

variable {st : State} {x : String} {t : Ty} {v : Int}

theorem live_pushMono :
    (st.pushMono x t).Live v ↔ v ∈ (t.apply st.subst).vars ∨ st.Live v := by
  simp only [Live, Env.Live, pushMono, Env.pushMono, Env.mem_freeVars_push,
    Scheme.mem_freeVars_mono, Ty.apply_eq_subst, Ty.mem_vars_subst]
  constructor
  · rintro ⟨u, hu | hu, hv⟩
    · exact .inl ⟨u, hu, hv⟩
    · exact .inr ⟨u, hu, hv⟩
  · rintro (⟨u, hu, hv⟩ | ⟨u, hu, hv⟩)
    · exact ⟨u, .inl hu, hv⟩
    · exact ⟨u, .inr hu, hv⟩

theorem bounds_pushMono : (st.pushMono x t).env.Bounds v ↔ st.env.Bounds v := by
  simp [pushMono, Env.pushMono]

theorem Regular.pushMono (hr : st.Regular) (ht : st.Confines (fun v => ¬ st.env.Bounds v) t)
    (hlt : t.Within (· < st.supply.next)) : (st.pushMono x t).Regular := by
  refine ⟨hr.low, hr.triangular, hr.complete, hr.below,
    List.forall_mem_cons.2 ⟨⟨ht.1, hlt⟩, hr.bodies⟩, fun v hv => ?_⟩
  rw [bounds_pushMono] at hv
  obtain ⟨hv_lt, hlive, hne⟩ := hr.bounds v hv
  refine ⟨hv_lt, fun h => ?_, hne⟩
  rcases live_pushMono.1 h with h | h
  · exact (ht.2 v h).1 hv
  · exact hlive h

/-! ### Generalization steps -/

/-- The environment is up to date: what is free in it is what is live. -/
def Current (st : State) : Prop :=
  ∀ v, st.Live v ↔ v ∈ st.env.freeVars

/-- Bringing the environment up to date changes nothing about its meaning. -/
theorem Regular.refresh {P : Int → Prop} (hr : st.Regular) :
    st.Extends P st.refresh ∧ st.refresh.Current := by
  have hdom : ∀ v, st.env.Bounds v → ∀ q ∈ st.subst, q.var ≠ v := fun v hv => (hr.bounds v hv).2.2
  have hlive : ∀ v, st.refresh.Live v ↔ st.Live v := by
    intro v
    constructor
    · rintro ⟨u, hu, hv⟩
      have hu' := hr.mem_freeVars_apply.1 hu
      have hv' : v ∈ (st.subst.eval u).vars := hv
      rw [Subst.eval_of_forall_ne (hr.ne_of_live hu'), Ty.mem_vars_var] at hv'
      exact hv' ▸ hu'
    · intro hv
      exact Regular.live_of_mem_freeVars (hr.mem_freeVars_apply.2 hv) (hr.ne_of_live hv)
  have hbodies : ∀ y ∈ st.refresh.env,
      y.scheme.body.Complete ∧ y.scheme.body.Within (· < st.supply.next) := by
    intro y hy
    obtain ⟨x, hx, rfl⟩ := List.mem_map.1 hy
    rw [hr.scheme_apply_eq hx]
    exact ⟨(hr.bodies x hx).1.apply hr.complete, (hr.bodies x hx).2.apply hr.below⟩
  have hregular : st.refresh.Regular := by
    refine ⟨hr.low, hr.triangular, hr.complete, hr.below, hbodies, fun v hv => ?_⟩
    have hv' : st.env.Bounds v := Env.bounds_apply.1 hv
    exact ⟨(hr.bounds v hv').1, fun h => (hr.bounds v hv').2.1 ((hlive v).1 h), hdom v hv'⟩
  refine ⟨⟨hregular, Int.le_refl _, ?_, [], (List.append_nil _).symm, Subst.within_nil _⟩,
    fun v => (hlive v).trans hr.mem_freeVars_apply.symm⟩
  -- applying the substitution a second time does nothing
  change (st.env.apply st.subst).apply st.subst = st.env.apply st.subst
  simp only [Env.apply, List.map_map]
  refine List.map_congr_left fun x _ => ?_
  have hself := (hr.triangular.filter fun q => !x.scheme.bound.contains q.var).apply_apply []
    x.scheme.body
  rw [List.append_nil] at hself
  simp only [Function.comp_apply, Scheme.apply, hself]

theorem live_bind {b : Binding} : (st.bind b).Live v ↔ st.Live v := by
  simp only [Live, Env.Live, bind, Env.mem_freeVars_push_generalize]

theorem bounds_bind {b : Binding} :
    (st.bind b).env.Bounds v ↔ (v ∈ b.slot.vars ∧ ¬ v ∈ st.env.freeVars) ∨ st.env.Bounds v := by
  simp only [bind, Env.bounds_push, Env.mem_bound_generalize]

/-- In an environment that is up to date, a resolved type can be generalized. -/
theorem Regular.bind (hr : st.Regular) (hc : st.Current) {b : Binding} (hb : b.slot.Complete)
    (hlt : b.slot.Within (· < st.supply.next)) (hres : ∀ q ∈ st.subst, q.var ∉ b.slot.vars) :
    (st.bind b).Regular ∧ (st.bind b).Current := by
  refine ⟨⟨hr.low, hr.triangular, hr.complete, hr.below,
    List.forall_mem_cons.2 ⟨⟨hb, hlt⟩, hr.bodies⟩, fun v hv => ?_⟩, fun v => ?_⟩
  · rw [live_bind]
    rcases bounds_bind.1 hv with ⟨hmem, hfree⟩ | hv
    · exact ⟨hlt v hmem, fun h => hfree ((hc v).1 h), fun q hq e => hres q hq (e ▸ hmem)⟩
    · exact hr.bounds v hv
  · rw [live_bind, hc v]
    exact Env.mem_freeVars_push_generalize.symm

end Push

end State

end LetPoly
