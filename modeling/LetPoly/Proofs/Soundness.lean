import LetPoly.Proofs.Starts

/-!
# Soundness of type inference

A run of inference that ends well leaves a typing derivation behind: with the final substitution
applied, the annotated tree has the type found, and every slot holds the type of what it belongs to.

The induction is on the tree. Its statement has to survive the steps that come after a run, so it is
about every substitution that goes on from the state of the run without touching the variables that
have gone out of sight. Those are the variables the run has met, that are no longer live and do not
occur in its type; the variables that a generalization inside the run has quantified are among them.

## Main definitions

* `Open`: the variables about which something may still be learned after a run.
* `State.Reaches`: a substitution that goes on from a state.

## Main results

* `Framed.open_of_zone`, `Framed.open_of_older`: what comes after a run concerns open variables.
* `Generalized.apply_env`: a generalized scope commutes with what comes after it.
* `Infers.sound`: a run leaves a typing derivation behind.
* `Context.infer_sound`: the same for whole passes.
-/

namespace LetPoly

/-! ### Variables in sight -/

/-- The id was there before a run on a tree with these bindings, and is none of its business. -/
def Older (bs : List Binding) (st : State) (v : Int) : Prop :=
  v < st.supply.next ∧ v ∉ reserve bs ∧ ¬ st.env.Bounds v

/-- The variables about which something may still be learned after a run from `st` to `st'` with the
result `t`. -/
def Open (bs : List Binding) (st st' : State) (t : Ty) (v : Int) : Prop :=
  st'.supply.next ≤ v ∨ st'.Live v ∨ v ∈ (t.apply st'.subst).vars ∨ Older bs st v

section Open

variable {bs cs ds : List Binding} {st st₁ st₂ st' : State} {t t₂ u : Ty} {P : Int → Prop} {v : Int}

theorem Older.left (h : Older (bs ++ cs) st v) : Older bs st v :=
  ⟨h.1, fun hv => h.2.1 (mem_reserve_append.2 (.inl hv)), h.2.2⟩

theorem Older.right (h : Older (bs ++ cs) st v) (he : st.Extends P st₁) : Older cs st₁ v :=
  ⟨Int.lt_of_lt_of_le h.1 he.next_le, fun hv => h.2.1 (mem_reserve_append.2 (.inr hv)),
    fun hb => h.2.2 (he.bounds_iff.1 hb)⟩

/-- Types from before are none of the business of the bindings to come. -/
theorem State.Confines.older (hr : Ready (bs ++ cs) st) (he : st.Extends (Zone bs st) st₁)
    (hu : st₁.Confines (Zone bs st) u) : st₁.Confines (Older cs st₁) u :=
  ⟨hu.1, fun v hv => ⟨⟨(hu.2 v hv).2, fun hres => hr.not_zone hres (hu.2 v hv).1,
    fun hb => hr.left.not_bounds (hu.2 v hv).1 (he.bounds_iff.1 hb)⟩, (hu.2 v hv).2⟩⟩

namespace Framed

/-- Quantified variables are not open. -/
theorem not_bounds (hr : Ready cs st₁) (hf : Framed cs st₁ st₂ t₂) (h : Open cs st₁ st₂ t₂ v) :
    ¬ st₂.env.Bounds v := by
  rcases h with hn | hl | ht | ho
  · exact fun hb => absurd (hf.steps.regular.bounds v hb).1 (Int.not_lt.2 hn)
  · exact hf.steps.regular.not_bounds_of_live hl
  · exact fun hb => hr.not_bounds (hf.confines.2 v ht).1 (hf.steps.bounds_iff.1 hb)
  · exact fun hb => ho.2.2 (hf.steps.bounds_iff.1 hb)

/-- Work on other bindings concerns open variables. -/
theorem open_of_zone (hr : Ready (cs ++ ds) st₁) (hf : Framed cs st₁ st₂ t₂)
    (he : st₂.Extends (Open cs st₁ st₂ t₂) st') (h : Zone ds st' v) : Open cs st₁ st₂ t₂ v := by
  rcases h with hl | hres | hn
  · rcases he.live_or hf.steps.regular hl with hl | ho
    · exact .inr (.inl hl)
    · exact ho
  · have hunt := hr.untouched v (mem_reserve_append.2 (.inr hres))
    exact .inr (.inr (.inr ⟨hunt.lt, fun hv => hr.not_zone hres (.inr (.inl hv)), hunt.bound⟩))
  · exact .inl (Int.le_trans he.next_le hn)

/-- The type of a run is open. -/
theorem confines_open (hf : Framed cs st₁ st₂ t₂) : st₂.Confines (Open cs st₁ st₂ t₂) t₂ :=
  ⟨hf.confines.1, fun v hv => ⟨.inr (.inr (.inl hv)), (hf.confines.2 v hv).2⟩⟩

/-- A type from before is open after a run: what the run has learned about it is live. -/
theorem open_of_older (hr : Ready cs st₁) (hf : Framed cs st₁ st₂ t₂)
    (hu : st₁.Confines (Older cs st₁) u) : st₂.Confines (Open cs st₁ st₂ t₂) u := by
  obtain ⟨D, hs, hD⟩ := hf.steps.grown
  refine ⟨hu.1, fun v hv => ?_⟩
  rw [hs, Ty.apply_append, Ty.apply_eq_subst _ D, Ty.mem_vars_subst] at hv
  obtain ⟨w, hw, hvw⟩ := hv
  obtain ⟨hold, hlt⟩ := hu.2 w hw
  by_cases hbound : ∃ q ∈ D, q.var = w
  · obtain ⟨q, hq, rfl⟩ := hbound
    have hlive : st₁.Live q.var := by
      rcases (hD q hq).1.1 with hl | hres | hn
      · exact hl
      · exact absurd hres hold.2.1
      · exact absurd hlt (Int.not_lt.2 hn)
    have hlive' : st₂.Live v := by
      rw [hf.steps.live_iff hr.regular, hs, Env.live_append]
      exact ⟨q.var, hlive, hvw⟩
    exact ⟨.inr (.inl hlive'), hf.steps.regular.live_lt hlive'⟩
  · rw [Subst.eval_of_forall_ne fun q hq e => hbound ⟨q, hq, e⟩, Ty.mem_vars_var] at hvw
    rw [hvw]
    exact ⟨.inr (.inr (.inr hold)), Int.lt_of_lt_of_le hlt hf.steps.next_le⟩

end Framed

/-- What is open after a node is open after a child of it. -/
theorem Open.of_node (hr : st₂.Regular) (he : st₂.Extends (Open cs st₁ st₂ t₂) st')
    (ht : st'.Confines (Open cs st₁ st₂ t₂) t) (hold : ∀ v, Older bs st v → Older cs st₁ v)
    (h : Open bs st st' t v) : Open cs st₁ st₂ t₂ v := by
  rcases h with hn | hl | hv | ho
  · exact .inl (Int.le_trans he.next_le hn)
  · rcases he.live_or hr hl with hl | ho
    · exact .inr (.inl hl)
    · exact ho
  · exact (ht.2 v hv).1
  · exact .inr (.inr (.inr (hold v ho)))

end Open

/-! ### Substitutions that go on -/

/-- The substitution `F` goes on from the one of the state, with complete types and without touching
a variable outside of `Q`. -/
def State.Reaches (st : State) (Q : Int → Prop) (F : Subst) : Prop :=
  ∃ D, F = st.subst ++ D ∧ D.Complete ∧ D.Within Q

namespace State.Reaches

variable {st st₁ : State} {P Q : Int → Prop} {F : Subst}

theorem mono (h : st.Reaches P F) (hPQ : ∀ v, P v → Q v) : st.Reaches Q F := by
  obtain ⟨D, hF, hcomplete, hD⟩ := h
  exact ⟨D, hF, hcomplete, hD.mono hPQ⟩

theorem of_extends (he : st.Extends Q st₁) (h : st₁.Reaches Q F) : st.Reaches Q F := by
  obtain ⟨D₁, hs, hD₁⟩ := he.grown
  obtain ⟨D, hF, hcomplete, hD⟩ := h
  have hcomplete₁ : D₁.Complete := (Subst.complete_append.1 (hs ▸ he.regular.complete)).2
  refine ⟨D₁ ++ D, by rw [hF, hs, List.append_assoc], ?_, ?_⟩
  · exact Subst.complete_append.2 ⟨hcomplete₁, hcomplete⟩
  · exact Subst.within_append.2 ⟨hD₁.mono fun _ hv => hv.1, hD⟩

theorem complete (hr : st.Regular) (h : st.Reaches Q F) : F.Complete := by
  obtain ⟨D, rfl, hcomplete, -⟩ := h
  exact Subst.complete_append.2 ⟨hr.complete, hcomplete⟩

theorem isPrefix (h : st.Reaches Q F) : st.subst <+: F := by
  obtain ⟨D, rfl, -, -⟩ := h
  exact List.prefix_append _ _

/-- The substitution goes on from a child as it goes on from the node. -/
theorem child {bs cs : List Binding} {st₂ st' : State} {t t₂ : Ty} (hf : Framed cs st₁ st₂ t₂)
    (he : st₂.Extends (Open cs st₁ st₂ t₂) st') (ht : st'.Confines (Open cs st₁ st₂ t₂) t)
    (hold : ∀ v, Older bs st v → Older cs st₁ v) (h : st'.Reaches (Open bs st st' t) F) :
    st₂.Reaches (Open cs st₁ st₂ t₂) F :=
  of_extends he (h.mono fun _ => Open.of_node hf.steps.regular he ht hold)

/-- A run on some bindings, steps about its result, a run on other bindings, and steps about both
results: the substitution goes on from each of the two runs as it goes on from the end. -/
theorem seq {bs cs : List Binding} {st₁' st₂ st' : State} {t t₁ t₂ : Ty} (hr : Ready (bs ++ cs) st)
    (h₁ : Framed bs st st₁ t₁)
    (hmid : ∀ Q : Int → Prop, (∀ v, Q v → ¬ st₁.env.Bounds v) → st₁.Confines Q t₁ →
      st₁.Extends Q st₁')
    (h₂ : Framed cs st₁' st₂ t₂)
    (htail : ∀ Q : Int → Prop, (∀ v, Q v → ¬ st₂.env.Bounds v) →
      (∀ v, st₂.supply.next ≤ v → Q v) → st₂.Confines Q t₁ → st₂.Confines Q t₂ →
      st₂.Extends Q st' ∧ st'.Confines Q t)
    (h : st'.Reaches (Open (bs ++ cs) st st' t) F) :
    st₁.Reaches (Open bs st st₁ t₁) F ∧ st₂.Reaches (Open cs st₁' st₂ t₂) F := by
  have hzone : st₁.Extends (Zone bs st) st₁' :=
    hmid _ (fun v hv hb => hr.left.not_bounds hv (h₁.steps.bounds_iff.1 hb)) h₁.confines
  have hsteps := h₁.steps.trans hzone
  have hr₂ := hr.right hsteps
  constructor
  · have hm := hmid _ (fun v => h₁.not_bounds hr.left) h₁.confines_open
    have hzone₂ := fun v (hv : Zone cs st₁' v) => h₁.open_of_zone hr hm hv
    have he := hm.trans (h₂.steps.mono hzone₂)
    obtain ⟨he', ht⟩ := htail _ (fun v hv hb => h₁.not_bounds hr.left hv (he.bounds_iff.1 hb))
      (fun v hv => .inl (Int.le_trans he.next_le hv)) (h₁.confines_open.after he)
      (h₂.confines.mono hzone₂)
    exact h.child h₁ (he.trans he') ht fun v hv => hv.left
  · obtain ⟨he', ht⟩ := htail _ (fun v => h₂.not_bounds hr₂) (fun v hv => .inl hv)
      (h₂.open_of_older hr₂ ((h₁.confines.after hzone).older hr hsteps)) h₂.confines_open
    exact h.child h₂ he' ht fun v hv => hv.right hsteps

/-- A run in the scope of some bindings, and steps about its result and the types of the
bindings. -/
theorem inner {bs cs ds bs' : List Binding} {st₂ st₃ st' : State} {t u : Ty}
    (hr : Ready (bs ++ cs) st) (hin : Entered bs ds st bs' st₁) (hcs : Ready cs st₁)
    (hf : Framed cs st₁ st₂ t) (hl : st₂.leave? bs'.length = some st₃)
    (htail : ∀ Q : Int → Prop, (∀ v, Q v → ¬ st₃.env.Bounds v) → st₃.Confines Q t →
      (∀ b' ∈ bs', st₃.Confines Q b'.slot) → st₃.Extends Q st' ∧ st'.Confines Q u)
    (h : st'.Reaches (Open (bs ++ cs) st st' u) F) : st₂.Reaches (Open cs st₁ st₂ t) F := by
  have hout := (hin.framed hf hl).1.steps
  have hold : ∀ v, Older (bs ++ cs) st v → Older cs st₁ v := fun v hv =>
    ⟨Int.lt_of_lt_of_le hv.1 hin.next_le, fun hres => hv.2.1 (mem_reserve_append.2 (.inr hres)),
      fun hb => hv.2.2 ((hin.bounds_iff v).1 hb)⟩
  have hslots : ∀ b' ∈ bs', st₂.Confines (Open cs st₁ st₂ t) b'.slot := fun b' hb' =>
    hf.open_of_older hcs ⟨(hin.slots b' hb').1, fun v hv => by
      obtain ⟨hz, hlt⟩ := (hin.slots b' hb').2 v hv
      exact ⟨⟨hlt, fun hres => hr.not_zone hres hz, fun hb =>
        hr.left.not_bounds hz ((hin.bounds_iff v).1 hb)⟩, hlt⟩⟩
  have hbounds : ∀ v, Open cs st₁ st₂ t v → ¬ st₃.env.Bounds v := fun v hv hb =>
    hf.not_bounds hcs hv (hf.steps.bounds_iff.2 ((hin.bounds_iff v).2 (hout.bounds_iff.1 hb)))
  obtain ⟨he, hu⟩ := htail _ hbounds (hf.confines_open.leave hl)
    fun b' hb' => (hslots b' hb').leave hl
  obtain ⟨hs, hsup⟩ := State.leave?_same hl
  have hopen : st₃.Reaches (Open cs st₁ st₂ t) F := of_extends he (h.mono fun v hv => by
    rcases hv with hn | hlive | ht | ho
    · exact .inl (hsup ▸ Int.le_trans he.next_le hn)
    · rcases he.live_or hout.regular hlive with hlive | ho
      · exact .inr (.inl (State.live_of_leave hl hlive))
      · exact ho
    · exact (hu.2 v ht).1
    · exact .inr (.inr (.inr (hold v ho))))
  obtain ⟨D, hF, hD⟩ := hopen
  exact ⟨D, hs ▸ hF, hD⟩

end State.Reaches

/-! ### Generalized scopes -/

section Scopes

variable {bs bs' cs : List Binding} {st st₁ st₂ st' : State} {Q : Int → Prop} {F : Subst} {t : Ty}
  {v : Int}

/-- The variables that a binding expression quantifies are its own. -/
theorem Older.rest (hr : Ready (bs ++ cs) st) (he : st.Extends (Zone bs st) st₁)
    (hslots : ∀ b ∈ bs', st₁.Confines (Zone bs st) b.slot) (h : Older (bs ++ cs) st v) :
    Older cs ((bs'.map st₁.resolve).foldl State.bind st₁.refresh) v := by
  have hgen := hr.rest he hslots
  refine ⟨?_, fun hv => h.2.1 (mem_reserve_append.2 (.inr hv)), fun hb => ?_⟩
  · rw [hgen.supply_eq]
    exact Int.lt_of_lt_of_le h.1 he.next_le
  · rcases (hgen.bounds_iff v).1 hb with ⟨c, hc, hv, hfree⟩ | hb
    · obtain ⟨b, hb, rfl⟩ := List.mem_map.1 hc
      rcases ((hslots b hb).2 v hv).1 with hl | hres | hn
      · -- a variable that was live is still free in the environment
        have hne : ∀ q ∈ st₁.subst, q.var ≠ v := fun q hq e =>
          he.regular.triangular.not_mem_vars_apply b.slot q hq (e ▸ hv)
        exact hfree (he.regular.mem_freeVars_apply.2 (he.live_of_live hr.regular hl hne))
      · exact h.2.1 (mem_reserve_append.2 (.inl hres))
      · exact absurd h.1 (Int.not_lt.2 hn)
    · exact h.2.2 (he.bounds_iff.1 (Env.bounds_apply.1 hb))

/-- What comes after commutes with the generalization of bindings. -/
theorem Generalized.apply_env (hr : st.Regular)
    (h : Generalized (bs'.map st.resolve) cs st.refresh st₁)
    (hF : st₁.Reaches (fun v => ¬ st₁.env.Bounds v) F) :
    st₁.env.apply F = (st.env.apply F).extend (st.env.apply F).generalize (bs'.map (·.name))
      (bs'.map fun b => b.slot.apply F) := by
  obtain ⟨Y, hF, hcomplete, hY⟩ := hF
  rw [h.subst_eq] at hF
  have hF' : F = st.subst ++ Y := hF
  obtain ⟨hrefresh, hcurrent⟩ := hr.refresh (P := fun _ => False)
  have henv : st.refresh.env.apply F = st.env.apply F := hrefresh.apply_env ⟨Y, hF.symm⟩
  have hY' : ∀ v, ¬ st₁.env.Bounds v → ¬ st.refresh.env.Bounds v :=
    fun v hv hb => hv ((h.bounds_iff v).2 (.inr hb))
  have hlive : ∀ v, st.refresh.env.Live Y v → ¬ st.refresh.env.Bounds v := by
    rintro v ⟨u, hu, hvu⟩
    rcases Subst.mem_vars_eval hvu with rfl | ⟨q, hq, hvq⟩
    · exact hrefresh.regular.not_bounds_of_live ((hcurrent v).2 hu)
    · exact hY' v ((hY q hq).2 v hvq)
  have hgen : ∀ c ∈ bs'.map st.resolve, (st.refresh.env.generalize c.slot).apply F =
      (st.env.apply F).generalize (c.slot.apply F) := by
    intro c hc
    obtain ⟨b, hb, rfl⟩ := List.mem_map.1 hc
    have hself : (st.refresh.env.generalize (st.resolve b).slot).apply st.subst =
        st.refresh.env.generalize (st.resolve b).slot :=
      congrArg (Scheme.mk _) (Ty.apply_eq_self fun q hq =>
        hr.triangular.not_mem_vars_apply b.slot q (List.mem_of_mem_filter hq))
    have hbound : Y.Within fun v => ¬ v ∈ (st.refresh.env.generalize (st.resolve b).slot).bound :=
      hY.mono fun v hv hmem => hv ((h.bounds_iff v).2
        (.inl ⟨st.resolve b, hc, Env.mem_bound_generalize.1 hmem⟩))
    have happly : (st.resolve b).slot.apply F = (st.resolve b).slot.apply Y := by
      have hone := hr.triangular.apply_apply Y b.slot
      rw [Ty.apply_append b.slot] at hone
      rw [hF']
      exact hone
    rw [happly, hF', Scheme.apply_append, hself, Env.generalize_apply
      (fun q hq => hY' _ (hY q hq).1) hlive hbound, Env.apply_append]
    rfl
  rw [h.env_eq, Env.apply_extend _ _ _ (List.forall_mem_map.2 hgen), henv]
  simp only [List.map_map]
  refine congrArg₂ (Env.extend _ _) rfl (List.map_congr_left fun b hb => ?_)
  exact hr.apply_apply ⟨Y, hF'.symm⟩ b.slot

/-- The annotation of a binding. -/
theorem State.Regular.mapSlot_resolve (hr : st.Regular) (hF : st.subst <+: F) {b : Binding}
    (hb : b.slot.Complete) :
    (st.resolve b).mapSlot (·.apply F) = { b with slot := b.slot.apply F } := by
  have hcomplete : (st.resolve b).slot.Complete := hb.apply hr.complete
  rw [Binding.mapSlot, hcomplete.isAbsent_eq_false]
  exact congrArg (Binding.mk b.name) (hr.apply_apply hF b.slot)

/-- The annotations of several bindings, as the typing rules ask for them. -/
theorem State.Regular.annotated (hr : st.Regular) (hF : st.subst <+: F) (hcomplete : F.Complete)
    (hbs : ∀ b ∈ bs, b.slot.Complete) (kind : SlotKind) :
    (∀ s ∈ (bs.map (·.slot)).map (·.apply F), s.Complete) ∧
      ((bs.map st.resolve).map (·.mapSlot (·.apply F))).map (·.name) = bs.map (·.name) ∧
      List.Forall₂ (fun b s => SlotRule.filled kind b.slot s)
        ((bs.map st.resolve).map (·.mapSlot (·.apply F))) ((bs.map (·.slot)).map (·.apply F)) := by
  have hmap : (bs.map st.resolve).map (·.mapSlot (·.apply F)) =
      bs.map fun b => { b with slot := b.slot.apply F } := by
    rw [List.map_map]
    exact List.map_congr_left fun b hb => hr.mapSlot_resolve hF (hbs b hb)
  refine ⟨?_, ?_, ?_⟩
  · rw [List.forall_mem_map, List.forall_mem_map]
    exact fun b hb => (hbs b hb).apply hcomplete
  · rw [hmap, List.map_map]
    rfl
  · rw [hmap, List.forall₂_map_left_iff, List.forall₂_map_right_iff, List.forall₂_map_right_iff,
      List.forall₂_same]
    exact fun _ _ => rfl

/-- The first part of a binding expression, of any type that comes out of it. -/
theorem State.Reaches.first {u : Ty} (hr : Ready (bs ++ cs) st) (h₁ : Framed bs st st₁ u)
    (hslots : ∀ b ∈ bs', st₁.Confines (Zone bs st) b.slot)
    (hf : Framed cs ((bs'.map st₁.resolve).foldl State.bind st₁.refresh) st₂ t)
    (hl : st₂.leave? bs'.length = some st') (h : st'.Reaches (Open (bs ++ cs) st st' t) F) :
    st₁.Reaches (Open bs st st₁ u) F := by
  have hrefresh := (h₁.steps.regular.refresh (P := Open bs st st₁ u)).1
  obtain ⟨hsteps, hconfines⟩ := (hr.rest h₁.steps hslots).steps hf (by rwa [List.length_map])
    fun v hv => h₁.open_of_zone hr hrefresh hv
  exact h.child h₁ (hrefresh.trans hsteps) hconfines fun v hv => hv.left

/-- The body of a binding expression: the substitution goes on from it, and its scope is the one
that the typing rules give it. -/
theorem State.Reaches.rest (hr : Ready (bs ++ cs) st) (he : st.Extends (Zone bs st) st₁)
    (hslots : ∀ b ∈ bs', st₁.Confines (Zone bs st) b.slot)
    (hf : Framed cs ((bs'.map st₁.resolve).foldl State.bind st₁.refresh) st₂ t)
    (hl : st₂.leave? bs'.length = some st') (h : st'.Reaches (Open (bs ++ cs) st st' t) F) :
    st₂.Reaches (Open cs ((bs'.map st₁.resolve).foldl State.bind st₁.refresh) st₂ t) F ∧
      ((bs'.map st₁.resolve).foldl State.bind st₁.refresh).env.apply F =
        (st.env.apply F).extend (st.env.apply F).generalize (bs'.map (·.name))
          (bs'.map fun b => b.slot.apply F) := by
  have hgen := hr.rest he hslots
  have hbody : st₂.Reaches
      (Open cs ((bs'.map st₁.resolve).foldl State.bind st₁.refresh) st₂ t) F := by
    have hlive := fun v => State.live_of_leave (v := v) hl
    obtain ⟨-, rfl⟩ := State.leave?_eq_some.1 hl
    refine h.mono fun v hv => ?_
    rcases hv with hn | hl | ht | ho
    · exact .inl hn
    · exact .inr (.inl (hlive v hl))
    · exact .inr (.inr (.inl ht))
    · exact .inr (.inr (.inr (ho.rest hr he hslots)))
  have hscope := State.Reaches.of_extends (hf.steps.mono fun _ hv => hgen.ready.not_bounds hv)
    (hbody.mono fun v hv hb => hf.not_bounds hgen.ready hv (hf.steps.bounds_iff.2 hb))
  have henv : st₁.env.apply F = st.env.apply F := by
    have hpre := hscope.isPrefix
    rw [hgen.subst_eq] at hpre
    exact he.apply_env hpre
  exact ⟨hbody, henv ▸ hgen.apply_env he.regular hscope⟩

end Scopes

/-! ### The derivation that a run leaves behind -/

section Nodes

variable {st : State} {Q : Int → Prop} {F : Subst}

/-- A variable has the type that inference gives to it. -/
theorem State.Regular.hasType_var {x : String} {σ : Scheme} (hr : st.Regular)
    (hx : st.env.lookup x = some σ)
    (hroom : ∀ v ∈ (st.supply.freshList σ.bound.size).1, v < Supply.last)
    (h : st.Reaches (fun v => ¬ st.env.Bounds v) F) :
    HasType .filled (st.env.apply F) (.var x) ((st.instantiate σ).1.apply F) := by
  have hmem := Env.mem_of_lookup hx
  have hlookup : (st.env.apply F).lookup x = some (σ.apply F) := by
    rw [Env.lookup_apply, hx, Option.map_some]
  have hcomplete := h.complete hr
  obtain ⟨D, rfl, -, hD⟩ := h
  have hdom : ∀ q ∈ st.subst ++ D, ¬ q.var ∈ σ.bound := by
    intro q hq hb
    rcases List.mem_append.1 hq with hq | hq
    · exact (hr.bounds _ ⟨_, hmem, hb⟩).2.2 q hq rfl
    · exact (hD q hq).1 ⟨_, hmem, hb⟩
  -- what replaces a free variable of the scheme has nothing to do with the quantified ones
  have hfree : ∀ v ∈ σ.body.vars, ¬ v ∈ σ.bound →
      ∀ w ∈ ((st.subst ++ D).eval v).vars, ¬ w ∈ σ.bound := by
    intro v hv hnb w hw hb
    have hlive : st.env.Live (st.subst ++ D) w :=
      ⟨v, Env.mem_freeVars.2 ⟨_, hmem, Scheme.mem_freeVars.2 ⟨hv, hnb⟩⟩, hw⟩
    obtain ⟨u, hu, hwu⟩ := Env.live_append.1 hlive
    rcases Subst.mem_vars_eval hwu with rfl | ⟨q, hq, hwq⟩
    · exact hr.not_bounds_of_live hu ⟨_, hmem, hb⟩
    · exact (hD q hq).2 w hwq ⟨_, hmem, hb⟩
  refine .var hlookup ⟨fun v => (st.subst ++ D).eval (st.supply.next + σ.bound.ids.idxOf v),
    fun v => (Ty.complete_var _).apply hcomplete, ?_⟩
  rw [(hr.instantiate_eq hmem hroom).1, Scheme.apply_eq hdom, Scheme.inst, Scheme.inst,
    Ty.apply_eq_subst, Ty.subst_subst, Ty.apply_eq_subst, Ty.subst_subst]
  refine Ty.subst_congr fun v hv => ?_
  by_cases hb : v ∈ σ.bound
  · simp only [hb, if_true, Ty.subst_var]
    rw [Subst.eval_of_forall_ne fun q hq e => hdom q hq (e ▸ hb), Ty.subst_var, if_pos hb]
  · simp only [hb, if_false, Ty.subst_var]
    exact (Ty.subst_eq_self fun w hw => if_neg (hfree v hv hb w hw)).symm

end Nodes

mutual

/-- A run of inference leaves a typing derivation behind, whatever comes after it. -/
theorem Infers.sound : (e : Expr) → {st : State} → {e' : Expr} → {st' : State} → {t : Ty} →
    Infers e st e' st' t → Ready e.bindings st → {F : Subst} →
    st'.Reaches (Open e.bindings st st' t) F →
    HasType .filled (st.env.apply F) (e'.mapSlots (·.apply F)) (t.apply F)
  | .unit, _, _, _, _, .unit, _, F, _ => by
    rw [Ty.unit, Ty.apply_const]
    exact .unit
  | .bool _, _, _, _, _, .bool, _, F, _ => by
    rw [Ty.bool, Ty.apply_const]
    exact .bool
  | .int _, _, _, _, _, .int, _, F, _ => by
    rw [Ty.int, Ty.apply_const]
    exact .int
  | .var _, st, _, _, _, .var hx hroom, hr, F, hF => by
    have hf := hr.regular.instantiate hx hroom
    have hF' := hF.mono fun v hv => hf.not_bounds hr hv
    exact hr.regular.hasType_var hx hroom hF'
  | .not e, st, _, st', _, .not he hu, hr, F, hF => by
    have hf := Infers.framed e he hr
    have hstep := hf.steps.regular.unify (fun v hv => hf.not_bounds hr hv) (.const "bool")
      hf.confines_open hu
    have ih := Infers.sound e he hr (hF.child hf hstep (.const "bool") fun _ hv => hv)
    rw [← State.apply_eq_of_unify hu hF.isPrefix, Ty.bool, Ty.apply_const] at ih
    rw [Ty.bool, Ty.apply_const]
    exact .not ih
  | .neg e, st, _, st', _, .neg he hu, hr, F, hF => by
    have hf := Infers.framed e he hr
    have hstep := hf.steps.regular.unify (fun v hv => hf.not_bounds hr hv) (.const "int")
      hf.confines_open hu
    have ih := Infers.sound e he hr (hF.child hf hstep (.const "int") fun _ hv => hv)
    rw [← State.apply_eq_of_unify hu hF.isPrefix, Ty.int, Ty.apply_const] at ih
    rw [Ty.int, Ty.apply_const]
    exact .neg ih
  | .arith _ l r, st, _, st', _, .arith hl hr hu hu', hready, F, hF => by
    have hready : Ready (l.bindings ++ r.bindings) st := hready
    have h₁ := Infers.framed l hl hready.left
    have h₂ := Infers.framed r hr (hready.right h₁.steps)
    obtain ⟨hF₁, hF₂⟩ := hF.seq hready h₁ (fun Q _ _ => .refl h₁.steps.regular) h₂
      fun Q hQ _ c₁ c₂ => by
        have hstep := h₂.steps.regular.unify hQ c₁ c₂ hu
        exact ⟨hstep.trans (hstep.unify hQ (c₁.after hstep) (.const "int") hu'), .const "int"⟩
    have ih₁ := Infers.sound l hl hready.left hF₁
    have ih₂ := Infers.sound r hr (hready.right h₁.steps) hF₂
    have heq := State.apply_eq_of_unify hu ((State.subst_isPrefix_unify hu').trans hF.isPrefix)
    have heq' := State.apply_eq_of_unify hu' hF.isPrefix
    rw [Ty.int, Ty.apply_const] at heq'
    rw [heq'] at ih₁
    rw [h₁.steps.apply_env hF₁.isPrefix, ← heq, heq'] at ih₂
    rw [Ty.int, Ty.apply_const]
    exact .arith ih₁ ih₂
  | .eq l r, st, _, st', _, .eq hl hr hu, hready, F, hF => by
    have hready : Ready (l.bindings ++ r.bindings) st := hready
    have h₁ := Infers.framed l hl hready.left
    have h₂ := Infers.framed r hr (hready.right h₁.steps)
    obtain ⟨hF₁, hF₂⟩ := hF.seq hready h₁ (fun Q _ _ => .refl h₁.steps.regular) h₂
      fun Q hQ _ c₁ c₂ => ⟨h₂.steps.regular.unify hQ c₁ c₂ hu, .const "bool"⟩
    have ih₁ := Infers.sound l hl hready.left hF₁
    have ih₂ := Infers.sound r hr (hready.right h₁.steps) hF₂
    rw [h₁.steps.apply_env hF₁.isPrefix, ← State.apply_eq_of_unify hu hF.isPrefix] at ih₂
    rw [Ty.bool, Ty.apply_const]
    exact .eq ih₁ ih₂
  | .le l r, st, _, st', _, .le hl hu hr hu', hready, F, hF => by
    have hready : Ready (l.bindings ++ r.bindings) st := hready
    have h₁ := Infers.framed l hl hready.left
    have h₁' := Framed.unify hready.left h₁.steps (.const "int") h₁.confines hu (.const "int")
    have h₂ := Infers.framed r hr (hready.right h₁'.steps)
    obtain ⟨hF₁, hF₂⟩ := hF.seq hready h₁
      (fun Q hQ c => h₁.steps.regular.unify hQ (.const "int") c hu) h₂
      fun Q hQ _ _ c => ⟨h₂.steps.regular.unify hQ (.const "int") c hu', .const "bool"⟩
    have ih₁ := Infers.sound l hl hready.left hF₁
    have ih₂ := Infers.sound r hr (hready.right h₁'.steps) hF₂
    have hpre := h₂.steps.subst_isPrefix.trans hF₂.isPrefix
    rw [← State.apply_eq_of_unify hu hpre, Ty.int, Ty.apply_const] at ih₁
    rw [h₁'.steps.apply_env hpre, ← State.apply_eq_of_unify hu' hF.isPrefix, Ty.int,
      Ty.apply_const] at ih₂
    rw [Ty.bool, Ty.apply_const]
    exact .le ih₁ ih₂
  | .ite c e₁ e₂, st, _, st', _, .ite hc hu h₁ h₂ hu', hready, F, hF => by
    have hready : Ready (c.bindings ++ e₁.bindings ++ e₂.bindings) st := hready
    have hc' := Infers.framed c hc hready.left.left
    have hcond := Framed.unify hready.left.left hc'.steps (.const "bool") hc'.confines hu
      (.const "bool")
    have hf₁ := Infers.framed e₁ h₁ (hready.left.right hcond.steps)
    have hyes := Framed.after hready.regular hcond.steps hf₁
    have hf₂ := Infers.framed e₂ h₂ (hready.right hyes.steps)
    -- the two parts before the last unification, and then the two parts of the first one
    obtain ⟨hF₁, hF₂⟩ := hF.seq hready hyes (fun Q _ _ => .refl hyes.steps.regular) hf₂
      fun Q hQ _ c₁ c₂ => by
        have hstep := hf₂.steps.regular.unify hQ c₁ c₂ hu'
        exact ⟨hstep, (c₁.after hstep).apply hstep.regular⟩
    have henv₂ := hyes.steps.apply_env hF₁.isPrefix
    obtain ⟨hFc, hF₁⟩ := hF₁.seq hready.left hc'
      (fun Q hQ c => hc'.steps.regular.unify hQ (.const "bool") c hu) hf₁
      fun Q _ _ _ c => ⟨.refl hf₁.steps.regular, c⟩
    have hpre := hf₁.steps.subst_isPrefix.trans hF₁.isPrefix
    have ihc := Infers.sound c hc hready.left.left hFc
    have ih₁ := Infers.sound e₁ h₁ (hready.left.right hcond.steps) hF₁
    have ih₂ := Infers.sound e₂ h₂ (hready.right hyes.steps) hF₂
    rw [← State.apply_eq_of_unify hu hpre, Ty.bool, Ty.apply_const] at ihc
    rw [hcond.steps.apply_env hpre] at ih₁
    rw [henv₂, ← State.apply_eq_of_unify hu' hF.isPrefix] at ih₂
    rw [(Infers.framed _ (.ite hc hu h₁ h₂ hu') hready).steps.regular.apply_apply hF.isPrefix]
    exact .ite ihc ih₁ ih₂
  | .letIn b v e, st, _, _, _, .letIn hb hv hu he hl, hready, F, hF => by
    have hready : Ready ([b] ++ v.bindings ++ e.bindings) st := hready
    have hdecl := hb.framed hready.left.left
    have hval := Infers.framed v hv (hready.left.right hdecl.steps)
    have hf := hb.framed_unify hready.left hval hu
    have hready' := (hready.rest hf.steps hf.slots).ready
    have hbody := Infers.framed e he hready'
    have hF₃ := hF.first hready hf hf.slots hbody hl
    obtain ⟨hFe, henv⟩ := hF.rest hready hf.steps hf.slots hbody hl
    obtain ⟨-, hFv⟩ := hF₃.seq hready.left hdecl (fun Q _ _ => .refl hdecl.steps.regular) hval
      fun Q hQ _ c₁ c₂ => by
        have hstep := hval.steps.regular.unify hQ c₁ c₂ hu
        exact ⟨hstep, c₁.after hstep⟩
    have ihv := Infers.sound v hv (hready.left.right hdecl.steps) hFv
    have ihe := Infers.sound e he hready' hFe
    rw [hdecl.steps.apply_env (hval.steps.subst_isPrefix.trans hFv.isPrefix),
      ← State.apply_eq_of_unify hu hF₃.isPrefix] at ihv
    rw [Expr.mapSlots, hf.steps.regular.mapSlot_resolve hF₃.isPrefix hf.confines.1]
    exact .letIn ihv rfl (Eq.subst (motive := (HasType _ · _ _)) henv ihe)
  | .letRec fn args body rest, st, _, _, _, .letRec hfn hargs hbody hl hu hrest hl', hready, F,
      hF => by
    have hready : Ready (fn :: args ++ body.bindings ++ rest.bindings) st := hready
    have hin := (Enters.cons hfn hargs).entered hready.left
    have hfb := Infers.framed body hbody hin.ready
    obtain ⟨hfb', hslots⟩ := hin.framed hfb hl
    have hf := hin.framed_arrow hready.left hfb hl hu
    have hready' := (hready.rest hf.steps hf.slots).ready
    have hfr := Infers.framed rest hrest hready'
    have hF₅ := hF.first hready hf hf.slots hfr hl'
    obtain ⟨hFr, henv⟩ := hF.rest hready hf.steps hf.slots hfr hl'
    have hFb := hF₅.inner hready.left hin hin.ready hfb hl fun Q hQ c cs => by
      obtain ⟨c₁, cs⟩ := List.forall_mem_cons.1 cs
      have hstep := hfb'.steps.regular.unify hQ c₁ (.arrow (List.forall_mem_map.2 cs) c) hu
      exact ⟨hstep, c₁.after hstep⟩
    have ihb := Infers.sound body hbody hin.ready hFb
    have ihr := Infers.sound rest hrest hready' hFr
    have heq := State.apply_eq_of_unify hu hF₅.isPrefix
    rw [Ty.apply_arrow] at heq
    rw [hin.env_eq, Env.apply_extend _ _ _ fun t _ => Scheme.apply_mono t F] at ihb
    rw [Expr.mapSlots, hf.steps.regular.mapSlot_resolve hF₅.isPrefix hf.confines.1]
    obtain ⟨hts, hnames, hslots⟩ := hf.steps.regular.annotated hF₅.isPrefix
      (hF₅.complete hf.steps.regular)
      (fun b hb => (hslots b (List.mem_cons_of_mem _ hb)).1) .recArg
    refine .letRec hts heq hslots ?_ ?_
    · rw [hnames, ← heq]
      exact ihb
    · rw [← heq]
      exact Eq.subst (motive := (HasType _ · _ _)) henv ihr
  | .app fn args slot, st, _, st', _, .app hfn hargs hroom hu, hready, F, hF => by
    have hready : Ready (fn.bindings ++ Expr.bindingsAll args) st := hready
    have h₁ := Infers.framed fn hfn hready.left
    have h₂ := InfersAll.framed args hargs (hready.right h₁.steps)
    obtain ⟨hF₁, hF₂⟩ := hF.seq hready h₁ (fun Q _ _ => .refl h₁.steps.regular) h₂
      fun Q hQ hnew c₁ c₂ => by
        have hfresh := h₂.steps.regular.freshVar (P := Q) hroom
        have hret := State.Confines.freshVar h₂.steps.regular hroom (hnew _ (Int.le_refl _))
        have hty := State.Confines.arrow (fun s hs => (c₂.of_tuple s hs).after hfresh) hret
        have hstep := hfresh.unify hQ hty (c₁.after hfresh) hu
        exact ⟨hfresh.trans hstep, (hret.after hstep).apply hstep.regular⟩
    have ih₁ := Infers.sound fn hfn hready.left hF₁
    have ih₂ := InfersAll.sound args hargs (hready.right h₁.steps) hF₂
    have hf := Infers.framed (.app fn args slot) (.app hfn hargs hroom hu) hready
    rw [← State.apply_eq_of_unify hu hF.isPrefix, Ty.apply_arrow] at ih₁
    rw [h₁.steps.apply_env hF₁.isPrefix] at ih₂
    rw [Expr.mapSlots, hf.confines.1.isAbsent_eq_false, hf.steps.regular.apply_apply hF.isPrefix]
    exact .app ih₁ ih₂ rfl
  | .tuple es, st, _, _, _, .tuple hes, hready, F, hF => by
    rw [Ty.apply_tuple]
    exact .tuple (InfersAll.sound es hes hready hF)
  | .letTuple vars v e, st, _, _, _, .letTuple hvars hv hl hu he hl', hready, F, hF => by
    have hready : Ready (vars ++ v.bindings ++ e.bindings) st := hready
    have hin := hvars.entered hready.left
    have hfv := Infers.framed v hv hin.ready
    have hfv' := (hin.framed hfv hl).1
    have hf := hin.framed_tuple hready.left hfv hl hu
    have hready' := (hready.rest hf.steps hf.slots_of_tuple).ready
    have hfe := Infers.framed e he hready'
    have hF₄ := hF.first hready hf hf.slots_of_tuple hfe hl'
    obtain ⟨hFe, henv⟩ := hF.rest hready hf.steps hf.slots_of_tuple hfe hl'
    have hFv := hF₄.inner hready.left hin hin.ready hfv hl fun Q hQ c cs => by
      have cs' := State.Confines.tuple (List.forall_mem_map.2 cs)
      have hstep := hfv'.steps.regular.unify hQ c cs' hu
      exact ⟨hstep, cs'.after hstep⟩
    have ihv := Infers.sound v hv hin.ready hFv
    have ihe := Infers.sound e he hready' hFe
    rw [hin.env_eq, Env.apply_extend _ _ _ fun t _ => Scheme.apply_mono t F,
      State.apply_eq_of_unify hu hF₄.isPrefix, Ty.apply_tuple] at ihv
    obtain ⟨hts, hnames, hslots⟩ := hf.steps.regular.annotated hF₄.isPrefix
      (hF₄.complete hf.steps.regular) (fun b hb => (hf.slots_of_tuple b hb).1) .tupleVar
    refine .letTuple hts hslots ?_ ?_
    · rw [hnames]
      exact ihv
    · rw [hnames, List.map_map]
      exact Eq.subst (motive := (HasType _ · _ _)) henv ihe

theorem InfersAll.sound : (es : List Expr) → {st : State} → {es' : List Expr} → {st' : State} →
    {ts : List Ty} → InfersAll es st es' st' ts → Ready (Expr.bindingsAll es) st → {F : Subst} →
    st'.Reaches (Open (Expr.bindingsAll es) st st' (.tuple ts)) F →
    HasTypeAll .filled (st.env.apply F) (Expr.mapSlotsAll (·.apply F) es') (ts.map (·.apply F))
  | [], _, _, _, _, .nil, _, F, _ => .nil
  | e :: es, st, _, st', _, .cons he hes, hready, F, hF => by
    have hready : Ready (e.bindings ++ Expr.bindingsAll es) st := hready
    have h₁ := Infers.framed e he hready.left
    have h₂ := InfersAll.framed es hes (hready.right h₁.steps)
    obtain ⟨hF₁, hF₂⟩ := hF.seq hready h₁ (fun Q _ _ => .refl h₁.steps.regular) h₂
      fun Q _ _ c₁ c₂ => ⟨.refl h₂.steps.regular, .tuple (List.forall_mem_cons.2 ⟨c₁, c₂.of_tuple⟩)⟩
    have ih₁ := Infers.sound e he hready.left hF₁
    have ih₂ := InfersAll.sound es hes (hready.right h₁.steps) hF₂
    rw [h₁.steps.apply_env hF₁.isPrefix] at ih₂
    exact .cons ih₁ ih₂

end

/-! ### Whole passes -/

/-- If a pass from a well-formed start finds a type, and the supply does not overflow on the way,
then the annotated tree has that type in the environment under the substitution found, with every
slot holding the type of what it belongs to. -/
theorem Context.infer_sound {ctx : Context} {env : Env} {root : Expr} {g : Supply} {T : Ty}
    (hg : ctx.passSupply env root = .ok g) (hstart : WellFormed env root g)
    (hroom : NoWrap (ctx.infer env root).trace)
    (h : (ctx.infer env root).verdict = .inferred T) :
    HasType .filled (env.apply (ctx.infer env root).context.subst) (ctx.infer env root).tree T := by
  obtain ⟨hroot, e', st', t, hdone⟩ := Context.exists_done hg h
  obtain ⟨hverdict, htree, hsubst⟩ := Context.infer_of_done hg hroot hdone
  rw [Context.trace_infer hg hroot, hdone] at hroom
  obtain rfl : t.apply st'.subst = T := Verdict.inferred.inj (hverdict.symm.trans h)
  have hreach : st'.Reaches (Open root.bindings ⟨env, [], g, []⟩ st' t) st'.subst :=
    ⟨[], (List.append_nil _).symm, fun _ hq => absurd hq List.not_mem_nil, Subst.within_nil _⟩
  rw [hsubst, htree]
  exact Infers.sound root (infers_of_infer root _ hdone hroom) hstart.ready hreach

theorem Context.infer_sound_idTwice :
    ((Context.fresh (some ⟨3⟩)).infer pairEnv idTwice).verdict =
        .inferred (.tuple [.int, .tuple [.bool, .var 1]]) ∧
      HasType .filled
        (pairEnv.apply ((Context.fresh (some ⟨3⟩)).infer pairEnv idTwice).context.subst)
        ((Context.fresh (some ⟨3⟩)).infer pairEnv idTwice).tree
        (.tuple [.int, .tuple [.bool, .var 1]]) := by
  have h : ((Context.fresh (some ⟨3⟩)).infer pairEnv idTwice).verdict =
      .inferred (.tuple [.int, .tuple [.bool, .var 1]]) := by
    cbv
  exact ⟨h, Context.infer_sound rfl wellFormed_idTwice noWrap_idTwice h⟩

end LetPoly
