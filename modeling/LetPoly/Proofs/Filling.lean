import LetPoly.Inference.Infer
import LetPoly.Proofs.Trees
import LetPoly.Proofs.Typing

/-!
# Filling the slots of a tree

Two trees of the same shape differ in their slots only: they have the same nodes at the same places,
with the same names and the same texts, and a rule tells which types may stand in the slots of the
second tree, given those of the first. Inference turns a tree into one that differs from it in this
way, also when it fails, and it leaves alone what a binding declares.

## Main definitions

* `Expr.Fills`: the second tree is the first one with types in its slots that the rule allows.

## Main results

* `Expr.Fills.children`, `Expr.Fills.at?`, `Expr.Fills.places`: the nodes correspond.
* `Expr.Fills.slots`: the slots correspond.
* `HasType.exists_fills`: a derivation tells how the slots of the tree can be filled.
* `infer_fills`: inference changes a tree in its slots only.
-/

namespace LetPoly

/-! ### Rules -/

namespace SlotRule

theorem declared_refl (kind : SlotKind) (t : Ty) : declared kind t t :=
  fun _ _ _ => rfl

theorem declared_trans {kind : SlotKind} {r s t : Ty} (h : declared kind r s)
    (h' : declared kind s t) : declared kind r t := by
  intro hkind hr hvars
  obtain rfl := h hkind hr hvars
  exact h' hkind hr hvars

/-- A declared type has no variables that a substitution could replace. -/
theorem declared_apply {kind : SlotKind} {s t : Ty} (h : declared kind s t) (S : Subst) :
    declared kind s (t.apply S) := by
  intro hkind hs hvars
  obtain rfl := h hkind hs hvars
  refine (Ty.apply_eq_self fun q _ => ?_).symm
  rw [hvars]
  exact List.not_mem_nil

end SlotRule

/-- The binding `b'` is `b` with a type in its slot that the rule allows. -/
structure Binding.Fills (rule : SlotRule) (kind : SlotKind) (b b' : Binding) : Prop where
  name : b'.name = b.name
  slot : rule kind b.slot b'.slot

/-- The slot `s'` is `s` with a type in it that the rule allows. -/
structure Slot.Fills (rule : SlotRule) (s s' : Slot) : Prop where
  kind : s'.kind = s.kind
  label : s'.label = s.label
  type : rule s.kind s.type s'.type

/-- The second tree is the first one with types in its slots that the rule allows. -/
inductive Expr.Fills (rule : SlotRule) : Expr → Expr → Prop where
  | absent : Fills rule .absent .absent
  | unit : Fills rule .unit .unit
  | bool {b : Bool} : Fills rule (.bool b) (.bool b)
  | int {n : Int} : Fills rule (.int n) (.int n)
  | var {x : String} : Fills rule (.var x) (.var x)
  | not {e e' : Expr} (he : Fills rule e e') : Fills rule (.not e) (.not e')
  | neg {e e' : Expr} (he : Fills rule e e') : Fills rule (.neg e) (.neg e')
  | arith {op : ArithOp} {l l' r r' : Expr} (hl : Fills rule l l') (hr : Fills rule r r') :
    Fills rule (.arith op l r) (.arith op l' r')
  | eq {l l' r r' : Expr} (hl : Fills rule l l') (hr : Fills rule r r') :
    Fills rule (.eq l r) (.eq l' r')
  | le {l l' r r' : Expr} (hl : Fills rule l l') (hr : Fills rule r r') :
    Fills rule (.le l r) (.le l' r')
  | ite {c c' e₁ e₁' e₂ e₂' : Expr} (hc : Fills rule c c') (h₁ : Fills rule e₁ e₁')
    (h₂ : Fills rule e₂ e₂') : Fills rule (.ite c e₁ e₂) (.ite c' e₁' e₂')
  | letIn {b b' : Binding} {v v' e e' : Expr} (hb : b.Fills rule .letVar b')
    (hv : Fills rule v v') (he : Fills rule e e') : Fills rule (.letIn b v e) (.letIn b' v' e')
  | letRec {fn fn' : Binding} {args args' : List Binding} {body body' rest rest' : Expr}
    (hfn : fn.Fills rule .recFunc fn')
    (hargs : List.Forall₂ (Binding.Fills rule .recArg) args args')
    (hbody : Fills rule body body') (hrest : Fills rule rest rest') :
    Fills rule (.letRec fn args body rest) (.letRec fn' args' body' rest')
  | app {fn fn' : Expr} {args args' : List Expr} {t t' : Ty} (hfn : Fills rule fn fn')
    (hargs : List.Forall₂ (Fills rule) args args') (ht : rule .application t t') :
    Fills rule (.app fn args t) (.app fn' args' t')
  | tuple {es es' : List Expr} (h : List.Forall₂ (Fills rule) es es') :
    Fills rule (.tuple es) (.tuple es')
  | letTuple {vars vars' : List Binding} {v v' e e' : Expr}
    (hvars : List.Forall₂ (Binding.Fills rule .tupleVar) vars vars') (hv : Fills rule v v')
    (he : Fills rule e e') : Fills rule (.letTuple vars v e) (.letTuple vars' v' e')
  | foreign {kind : String} : Fills rule (.foreign kind) (.foreign kind)

/-! ### Declared types -/

theorem Binding.Fills.refl (kind : SlotKind) (b : Binding) : b.Fills .declared kind b :=
  ⟨rfl, SlotRule.declared_refl kind b.slot⟩

theorem Binding.Fills.trans {kind : SlotKind} {b₁ b₂ b₃ : Binding}
    (h : b₁.Fills .declared kind b₂) (h' : b₂.Fills .declared kind b₃) :
    b₁.Fills .declared kind b₃ :=
  ⟨h'.name.trans h.name, SlotRule.declared_trans h.slot h'.slot⟩

theorem Binding.Fills.mapSlot {kind : SlotKind} {b b' : Binding} (h : b.Fills .declared kind b')
    (S : Subst) : b.Fills .declared kind (b'.mapSlot (·.apply S)) := by
  rw [Binding.mapSlot]
  split
  · exact h
  · exact ⟨h.name, SlotRule.declared_apply h.slot S⟩

/-- Two steps from list to list, component by component, are one. -/
theorem forall₂_trans {α β γ : Type} {R : α → β → Prop} {S : β → γ → Prop} {T : α → γ → Prop}
    {xs : List α} {ys : List β} {zs : List γ} (hxy : List.Forall₂ R xs ys)
    (hyz : List.Forall₂ S ys zs) (h : ∀ x ∈ xs, ∀ y z, R x y → S y z → T x z) :
    List.Forall₂ T xs zs := by
  induction hxy generalizing zs with
  | nil =>
    cases hyz
    exact .nil
  | cons hx _ ih =>
    obtain _ | ⟨hy, hyz⟩ := hyz
    rw [List.forall_mem_cons] at h
    exact .cons (h.1 _ _ hx hy) (ih hyz h.2)

theorem Binding.map_name_eq {rule : SlotRule} {kind : SlotKind} {bs bs' : List Binding}
    (h : List.Forall₂ (Binding.Fills rule kind) bs bs') :
    bs'.map (·.name) = bs.map (·.name) := by
  induction h with
  | nil => rfl
  | cons hb _ ih => rw [List.map_cons, List.map_cons, hb.name, ih]

/-- What stands in the second list belongs to something in the first one. -/
theorem exists_of_forall₂ {α β : Type} {R : α → β → Prop} {xs : List α} {ys : List β}
    (h : List.Forall₂ R xs ys) {y : β} (hy : y ∈ ys) : ∃ x ∈ xs, R x y := by
  induction h with
  | nil => cases hy
  | @cons x _ _ _ hR _ ih =>
    rcases List.mem_cons.1 hy with rfl | hy
    · exact ⟨x, List.mem_cons_self, hR⟩
    · obtain ⟨x', hx', hR'⟩ := ih hy
      exact ⟨x', List.mem_cons_of_mem _ hx', hR'⟩

namespace Expr.Fills

variable {rule : SlotRule} {e a b : Expr}

theorem refl (e : Expr) : Fills .declared e e := by
  have hbs : ∀ (kind : SlotKind) (bs : List Binding),
      List.Forall₂ (Binding.Fills .declared kind) bs bs := fun kind bs =>
    List.forall₂_same.2 fun b _ => .refl kind b
  induction e using Expr.ind with
  | node e ih =>
    cases e with
    | letIn b v e =>
      exact .letIn (.refl _ b) (ih v (by simp [Expr.children])) (ih e (by simp [Expr.children]))
    | letRec fn args body rest =>
      exact .letRec (.refl _ fn) (hbs _ args) (ih body (by simp [Expr.children]))
        (ih rest (by simp [Expr.children]))
    | app fn args t =>
      obtain ⟨hfn, hargs⟩ := List.forall_mem_cons.1 ih
      exact .app hfn (List.forall₂_same.2 hargs) (SlotRule.declared_refl _ t)
    | tuple es => exact .tuple (List.forall₂_same.2 ih)
    | letTuple vars v e =>
      exact .letTuple (hbs _ vars) (ih v (by simp [Expr.children]))
        (ih e (by simp [Expr.children]))
    | _ => constructor <;> exact ih _ (by simp [Expr.children])

/-- Filling the slots twice is filling them once. -/
theorem trans (h : Fills .declared e a) (h' : Fills .declared a b) : Fills .declared e b := by
  induction e using Expr.ind generalizing a b with
  | node e ih =>
    cases h with
    | letIn hb hv he =>
      cases h' with
      | letIn hb' hv' he' =>
        exact .letIn (hb.trans hb') (ih _ (by simp [Expr.children]) hv hv')
          (ih _ (by simp [Expr.children]) he he')
    | letRec hfn hargs hbody hrest =>
      cases h' with
      | letRec hfn' hargs' hbody' hrest' =>
        exact .letRec (hfn.trans hfn') (forall₂_trans hargs hargs' fun _ _ _ _ => .trans)
          (ih _ (by simp [Expr.children]) hbody hbody')
          (ih _ (by simp [Expr.children]) hrest hrest')
    | app hfn hargs ht =>
      cases h' with
      | app hfn' hargs' ht' =>
        obtain ⟨ihfn, ihargs⟩ := List.forall_mem_cons.1 ih
        exact .app (ihfn hfn hfn') (forall₂_trans hargs hargs' fun c hc _ _ => ihargs c hc)
          (SlotRule.declared_trans ht ht')
    | tuple hes =>
      cases h' with
      | tuple hes' => exact .tuple (forall₂_trans hes hes' fun c hc _ _ => ih c hc)
    | letTuple hvars hv he =>
      cases h' with
      | letTuple hvars' hv' he' =>
        exact .letTuple (forall₂_trans hvars hvars' fun _ _ _ _ => .trans)
          (ih _ (by simp [Expr.children]) hv hv') (ih _ (by simp [Expr.children]) he he')
    | _ =>
      cases h'
      constructor <;> exact ih _ (by simp [Expr.children]) ‹_› ‹_›

/-- A substitution may be applied to what has been filled in. -/
theorem mapSlots (h : Fills .declared e a) (S : Subst) :
    Fills .declared e (a.mapSlots (·.apply S)) := by
  have hbs : ∀ {kind : SlotKind} {bs bs' : List Binding},
      List.Forall₂ (Binding.Fills .declared kind) bs bs' →
        List.Forall₂ (Binding.Fills .declared kind) bs (bs'.map (·.mapSlot (·.apply S))) :=
    fun h => List.forall₂_map_right_iff.2 (h.imp fun _ _ h => h.mapSlot S)
  induction e using Expr.ind generalizing a with
  | node e ih =>
    have hes : ∀ {es es' : List Expr}, (∀ c ∈ es, c ∈ e.children) →
        List.Forall₂ (Fills .declared) es es' →
          List.Forall₂ (Fills .declared) es (mapSlotsAll (·.apply S) es') := fun hc h => by
      rw [mapSlotsAll_eq_map, List.forall₂_map_right_iff]
      exact forall₂_trans h (List.forall₂_same.2 fun _ _ => rfl) fun c hmem _ _ h heq =>
        heq ▸ ih c (hc c hmem) h
    cases h with
    | letIn hb hv he =>
      exact .letIn (hb.mapSlot S) (ih _ (by simp [Expr.children]) hv)
        (ih _ (by simp [Expr.children]) he)
    | letRec hfn hargs hbody hrest =>
      exact .letRec (hfn.mapSlot S) (hbs hargs) (ih _ (by simp [Expr.children]) hbody)
        (ih _ (by simp [Expr.children]) hrest)
    | app hfn hargs ht =>
      refine .app (ih _ List.mem_cons_self hfn) (hes (fun _ => List.mem_cons_of_mem _) hargs) ?_
      split
      · exact ht
      · exact SlotRule.declared_apply ht S
    | tuple h => exact .tuple (hes (fun _ hc => hc) h)
    | letTuple hvars hv he =>
      exact .letTuple (hbs hvars) (ih _ (by simp [Expr.children]) hv)
        (ih _ (by simp [Expr.children]) he)
    | _ => constructor <;> exact ih _ (by simp [Expr.children]) ‹_›

/-! ### Nodes and slots -/

theorem children (h : Fills rule e a) : List.Forall₂ (Fills rule) e.children a.children := by
  cases h <;> simp_all [Expr.children]

theorem isAbsent (h : Fills rule e a) : a.isAbsent = e.isAbsent := by
  cases h <;> rfl

/-- The same path leads to corresponding nodes. -/
theorem at? (h : Fills rule e a) {p : Path} {n : Expr} (hn : e.at? p = some n) :
    ∃ n', a.at? p = some n' ∧ Fills rule n n' := by
  induction p generalizing e a with
  | nil =>
    obtain rfl := Option.some.inj hn
    exact ⟨a, rfl, h⟩
  | cons i p ih =>
    obtain ⟨c, hc, hn⟩ := Option.bind_eq_some_iff.1 hn
    obtain ⟨hi, rfl⟩ := List.getElem?_eq_some_iff.1 hc
    have hi' : i < a.children.length := h.children.length_eq ▸ hi
    obtain ⟨n', hn', hfills⟩ := ih (h.children.get hi hi') hn
    refine ⟨n', ?_, hfills⟩
    rw [Expr.at?, List.getElem?_eq_getElem hi']
    exact hn'

theorem placesFrom {es as : List Expr} (h : List.Forall₂ (fun e a =>
      List.Forall₂ (fun p q => q.1 = p.1 ∧ Fills rule p.2 q.2) e.places a.places) es as) (i : Nat) :
    List.Forall₂ (fun p q => q.1 = p.1 ∧ Fills rule p.2 q.2) (Expr.placesFrom i es)
      (Expr.placesFrom i as) := by
  induction h generalizing i with
  | nil => exact .nil
  | cons h _ ih =>
    refine List.rel_append ?_ (ih (i + 1))
    rw [under, under, List.forall₂_map_left_iff, List.forall₂_map_right_iff]
    exact h.imp fun p q h => ⟨congrArg (i :: ·) h.1, h.2⟩

/-- The nodes correspond, in order. -/
theorem places (h : Fills rule e a) :
    List.Forall₂ (fun p q => q.1 = p.1 ∧ Fills rule p.2 q.2) e.places a.places := by
  induction e using Expr.ind generalizing a with
  | node e ih =>
    cases hroot : e.isAbsent with
    | true =>
      cases h with
      | absent => exact .nil
      | _ => cases hroot
    | false =>
      rw [places_eq hroot, places_eq (h.isAbsent.trans hroot)]
      refine .cons ⟨rfl, h⟩ (placesFrom ?_ 0)
      exact forall₂_trans h.children (List.forall₂_same.2 fun _ _ => rfl) fun c hc _ _ h heq =>
        heq ▸ ih c hc h

theorem foreign? (h : Fills rule e a) : a.foreign? = e.foreign? := by
  cases h <;> rfl

/-- The same node is the first foreign one. -/
theorem unknown? (h : Fills rule e a) : a.unknown? = e.unknown? := by
  have hplaces := h.places
  rw [Expr.unknown?, Expr.unknown?]
  refine congrArg (Option.map UnknownKind.mk) ?_
  generalize e.places = ps, a.places = qs at hplaces
  induction hplaces with
  | nil => rfl
  | cons hpq _ ih => simp only [List.findSome?_cons, ih, hpq.2.foreign?]

theorem strength (h : Fills rule e a) : a.strength = e.strength := by
  cases h <;> rfl

theorem bracket (h : Fills rule e a) (hr : a.render = e.render) (place : Strength) :
    bracket place a a.render = bracket place e e.render := by
  rw [Expr.bracket, Expr.bracket, h.strength, hr]

mutual

/-- The types in the slots are not written. -/
theorem render : {e a : Expr} → Fills rule e a → a.render = e.render
  | _, _, .absent | _, _, .unit | _, _, .bool | _, _, .int | _, _, .var | _, _, .foreign => rfl
  | _, _, .not h | _, _, .neg h => by rw [Expr.render, Expr.render, h.bracket (render h)]
  | _, _, .arith hl hr | _, _, .eq hl hr | _, _, .le hl hr => by
    rw [Expr.render, Expr.render, hl.bracket (render hl), hr.bracket (render hr)]
  | _, _, .ite hc h₁ h₂ => by rw [Expr.render, Expr.render, render hc, render h₁, render h₂]
  | _, _, .letIn hb hv he => by rw [Expr.render, Expr.render, hb.name, render hv, render he]
  | _, _, .letRec hfn hargs hbody hrest => by
    rw [Expr.render, Expr.render, List.map_cons, List.map_cons, hfn.name,
      Binding.map_name_eq hargs, render hbody, render hrest]
  | _, _, .app hfn hargs _ => by
    rw [Expr.render, Expr.render, hfn.bracket (render hfn), renderArgs hargs]
    cases hargs <;> rfl
  | _, _, .tuple h => by rw [Expr.render, Expr.render, renderAll h]
  | _, _, .letTuple hvars hv he => by
    rw [Expr.render, Expr.render, Binding.map_name_eq hvars, render hv, render he]

theorem renderArgs : {es as : List Expr} → List.Forall₂ (Fills rule) es as →
    Expr.renderArgs as = Expr.renderArgs es
  | _, _, .nil => rfl
  | _, _, .cons h hs => by
    rw [Expr.renderArgs, Expr.renderArgs, h.bracket (render h), renderArgs hs]

theorem renderAll : {es as : List Expr} → List.Forall₂ (Fills rule) es as →
    Expr.renderAll as = Expr.renderAll es
  | _, _, .nil => rfl
  | _, _, .cons h hs => by rw [Expr.renderAll, Expr.renderAll, render h, renderAll hs]

end

theorem ownSlots (h : Fills rule e a) :
    List.Forall₂ (Slot.Fills rule) e.ownSlots a.ownSlots := by
  have hbs : ∀ {kind : SlotKind} {bs bs' : List Binding},
      List.Forall₂ (Binding.Fills rule kind) bs bs' →
        List.Forall₂ (Slot.Fills rule) (bs.map fun b => ⟨kind, b.name, b.slot⟩)
          (bs'.map fun b => ⟨kind, b.name, b.slot⟩) := fun h => by
    rw [List.forall₂_map_left_iff, List.forall₂_map_right_iff]
    exact h.imp fun _ _ h => ⟨rfl, h.name, h.slot⟩
  have hrender := h.render
  cases h with
  | letIn hb _ _ => exact .cons ⟨rfl, hb.name, hb.slot⟩ .nil
  | letRec hfn hargs _ _ => exact .cons ⟨rfl, hfn.name, hfn.slot⟩ (hbs hargs)
  | app _ _ ht => exact .cons ⟨rfl, hrender, ht⟩ .nil
  | letTuple hvars _ _ => exact hbs hvars
  | _ => exact .nil

/-- The slots correspond, in order. -/
theorem slots (h : Fills rule e a) : List.Forall₂ (Slot.Fills rule) e.slots a.slots :=
  List.rel_flatMap h.places fun _ _ h => h.2.ownSlots

end Expr.Fills

/-! ### Derivations -/

section Derivations

variable {rule : SlotRule}

theorem Binding.exists_fills {kind : SlotKind} {bs : List Binding} {ts : List Ty}
    (h : List.Forall₂ (fun b t => rule kind b.slot t) bs ts) :
    ∃ bs', List.Forall₂ (Binding.Fills rule kind) bs bs' ∧
      List.Forall₂ (fun b t => SlotRule.filled kind b.slot t) bs' ts := by
  induction h with
  | nil => exact ⟨[], .nil, .nil⟩
  | @cons b t _ _ hb _ ih =>
    obtain ⟨bs', hbs, hfilled⟩ := ih
    exact ⟨⟨b.name, t⟩ :: bs', .cons ⟨rfl, hb⟩ hbs, .cons rfl hfilled⟩

mutual

/-- A derivation tells which types fill the slots of the tree. -/
theorem HasType.exists_fills : {Γ : Env} → {e : Expr} → {t : Ty} → HasType rule Γ e t →
    ∃ a, Expr.Fills rule e a ∧ HasType .filled Γ a t
  | _, _, _, .unit => ⟨_, .unit, .unit⟩
  | _, _, _, .bool => ⟨_, .bool, .bool⟩
  | _, _, _, .int => ⟨_, .int, .int⟩
  | _, _, _, .var hx ht => ⟨_, .var, .var hx ht⟩
  | _, _, _, .not he =>
    let ⟨_, ha, he⟩ := he.exists_fills
    ⟨_, .not ha, .not he⟩
  | _, _, _, .neg he =>
    let ⟨_, ha, he⟩ := he.exists_fills
    ⟨_, .neg ha, .neg he⟩
  | _, _, _, .arith hl hr =>
    let ⟨_, hal, hl⟩ := hl.exists_fills
    let ⟨_, har, hr⟩ := hr.exists_fills
    ⟨_, .arith hal har, .arith hl hr⟩
  | _, _, _, .eq hl hr =>
    let ⟨_, hal, hl⟩ := hl.exists_fills
    let ⟨_, har, hr⟩ := hr.exists_fills
    ⟨_, .eq hal har, .eq hl hr⟩
  | _, _, _, .le hl hr =>
    let ⟨_, hal, hl⟩ := hl.exists_fills
    let ⟨_, har, hr⟩ := hr.exists_fills
    ⟨_, .le hal har, .le hl hr⟩
  | _, _, _, .ite hc h₁ h₂ =>
    let ⟨_, hac, hc⟩ := hc.exists_fills
    let ⟨_, ha₁, h₁⟩ := h₁.exists_fills
    let ⟨_, ha₂, h₂⟩ := h₂.exists_fills
    ⟨_, .ite hac ha₁ ha₂, .ite hc h₁ h₂⟩
  | _, _, _, @HasType.letIn _ _ b _ _ τ _ hv hb he =>
    let ⟨v', hav, hv⟩ := hv.exists_fills
    let ⟨e', hae, he⟩ := he.exists_fills
    ⟨.letIn ⟨b.name, τ⟩ v' e', .letIn ⟨rfl, hb⟩ hav hae, .letIn hv rfl he⟩
  | _, _, _, @HasType.letRec _ _ fn _ _ _ ts τ _ hts hfn hargs hbody hrest => by
    obtain ⟨args', hfills, hfilled⟩ := Binding.exists_fills hargs
    obtain ⟨body', hab, hbody⟩ := hbody.exists_fills
    obtain ⟨rest', har, hrest⟩ := hrest.exists_fills
    rw [← Binding.map_name_eq hfills] at hbody
    exact ⟨.letRec ⟨fn.name, .arrow ts τ⟩ args' body' rest', .letRec ⟨rfl, hfn⟩ hfills hab har,
      .letRec hts rfl hfilled hbody hrest⟩
  | _, _, t, .app hfn hargs hs =>
    let ⟨fn', haf, hfn⟩ := hfn.exists_fills
    let ⟨args', haa, hargs⟩ := hargs.exists_fills
    ⟨.app fn' args' t, .app haf haa hs, .app hfn hargs rfl⟩
  | _, _, _, .tuple h =>
    let ⟨_, ha, h⟩ := h.exists_fills
    ⟨_, .tuple ha, .tuple h⟩
  | _, _, _, .letTuple hts hvars hv he => by
    obtain ⟨vars', hfills, hfilled⟩ := Binding.exists_fills hvars
    obtain ⟨v', hav, hv⟩ := hv.exists_fills
    obtain ⟨e', hae, he⟩ := he.exists_fills
    rw [← Binding.map_name_eq hfills] at hv he
    exact ⟨.letTuple vars' v' e', .letTuple hfills hav hae, .letTuple hts hfilled hv he⟩

theorem HasTypeAll.exists_fills : {Γ : Env} → {es : List Expr} → {ts : List Ty} →
    HasTypeAll rule Γ es ts →
      ∃ as, List.Forall₂ (Expr.Fills rule) es as ∧ HasTypeAll .filled Γ as ts
  | _, _, _, .nil => ⟨[], .nil, .nil⟩
  | _, _, _, .cons he hes =>
    let ⟨_, ha, he⟩ := he.exists_fills
    let ⟨_, has, hes⟩ := hes.exists_fills
    ⟨_, .cons ha has, .cons he hes⟩

end

end Derivations

/-! ### Inference -/

namespace Outcome

variable {τ τ' ρ ρ' : Type} {P : τ → Prop}

/-- The tree that a step leaves, whether it ends well or not, has a property. -/
def Bears (o : Outcome τ ρ) (P : τ → Prop) : Prop :=
  P o.tree

theorem bears_andThen {o : Outcome τ' ρ'} {rebuild : τ' → τ} {blame : Failure → Failure}
    {next : τ' → State → ρ' → Outcome τ ρ} (hfail : P (rebuild o.tree))
    (hnext : ∀ st v, (next o.tree st v).Bears P) : (o.andThen rebuild blame next).Bears P := by
  rw [andThen]
  split
  · exact hfail
  · exact hnext _ _

section Steps

variable {st : State} {tree : Expr} {a b : Ty} {next : State → Outcome Expr Ty} {P : Expr → Prop}

theorem bears_leaving {o : Outcome Expr Ty} {rebuild : Expr → Expr} {i n : Nat}
    (h : P (rebuild o.tree)) : (o.leaving rebuild i n).Bears P := by
  rw [leaving]
  split
  · exact h
  · split <;> exact h

theorem bears_unifyThen (htree : P tree) (hnext : ∀ st, (next st).Bears P) :
    (st.unifyThen tree a b next).Bears P := by
  rw [State.unifyThen]
  split
  · exact htree
  · exact hnext _

theorem bears_constrain {r : Ty} (htree : P tree) : (st.constrain tree a b r).Bears P :=
  bears_unifyThen htree fun _ => htree

theorem bears_leaveThen {n : Nat} (htree : P tree) (hnext : ∀ st, (next st).Bears P) :
    (st.leaveThen tree n next).Bears P := by
  rw [State.leaveThen]
  split
  · exact htree
  · exact hnext _

end Steps

end Outcome

theorem Ty.eq_absent_of_isAbsent {t : Ty} (h : t.isAbsent = true) : t = .absent := by
  cases t with
  | absent => rfl
  | _ => cases h

/-- Only an empty slot gets a fresh variable. -/
theorem State.declare_fills (st : State) (kind : SlotKind) (b : Binding) :
    b.Fills .declared kind (st.declare b).1 := by
  rw [State.declare]
  split
  · rename_i habs
    exact ⟨rfl, fun _ hslot => absurd (Ty.eq_absent_of_isAbsent habs) hslot⟩
  · exact .refl kind b

theorem State.enter_fills (st : State) (kind : SlotKind) (bs : List Binding) :
    List.Forall₂ (Binding.Fills .declared kind) bs (st.enter bs).1 := by
  induction bs generalizing st with
  | nil => exact .nil
  | cons b bs ih => exact .cons (st.declare_fills kind b) (ih _)

theorem Binding.Fills.resolve {kind : SlotKind} {b b' : Binding} (h : b.Fills .declared kind b')
    (st : State) : b.Fills .declared kind (st.resolve b') :=
  ⟨h.name, SlotRule.declared_apply h.slot st.subst⟩

theorem Binding.Fills.map_resolve {kind : SlotKind} {bs bs' : List Binding}
    (h : List.Forall₂ (Binding.Fills .declared kind) bs bs') (st : State) :
    List.Forall₂ (Binding.Fills .declared kind) bs (bs'.map st.resolve) :=
  List.forall₂_map_right_iff.2 (h.imp fun _ _ h => h.resolve st)

section Runs

open Outcome
open LetPoly.Expr (Fills)

mutual

/-- Inference changes a tree in its slots only, whether it ends well or not, and leaves alone what
the bindings declare. -/
theorem infer_fills : (e : Expr) → (st : State) → (infer e st).Bears (Fills .declared e)
  | .absent, _ => .absent
  | .unit, _ => .unit
  | .bool _, _ => .bool
  | .int _, _ => .int
  | .var x, st => by
    rw [infer]
    split <;> exact .var
  | .not e, st =>
    have h := infer_fills e st
    bears_andThen (.not h) fun _ _ => bears_constrain (.not h)
  | .neg e, st =>
    have h := infer_fills e st
    bears_andThen (.neg h) fun _ _ => bears_constrain (.neg h)
  | .arith _ l r, st =>
    have hl := infer_fills l st
    bears_andThen (.arith hl (.refl r)) fun st _ =>
      have hr := infer_fills r st
      bears_andThen (.arith hl hr) fun _ _ =>
        bears_unifyThen (.arith hl hr) fun _ => bears_constrain (.arith hl hr)
  | .eq l r, st =>
    have hl := infer_fills l st
    bears_andThen (.eq hl (.refl r)) fun st _ =>
      have hr := infer_fills r st
      bears_andThen (.eq hl hr) fun _ _ => bears_constrain (.eq hl hr)
  | .le l r, st =>
    have hl := infer_fills l st
    bears_andThen (.le hl (.refl r)) fun _ _ => bears_unifyThen (.le hl (.refl r)) fun st =>
      have hr := infer_fills r st
      bears_andThen (.le hl hr) fun _ _ => bears_constrain (.le hl hr)
  | .ite c e₁ e₂, st =>
    have hc := infer_fills c st
    bears_andThen (.ite hc (.refl e₁) (.refl e₂)) fun _ _ =>
      bears_unifyThen (.ite hc (.refl e₁) (.refl e₂)) fun st =>
        have h₁ := infer_fills e₁ st
        bears_andThen (.ite hc h₁ (.refl e₂)) fun st _ =>
          have h₂ := infer_fills e₂ st
          bears_andThen (.ite hc h₁ h₂) fun _ _ =>
            bears_unifyThen (.ite hc h₁ h₂) fun _ => .ite hc h₁ h₂
  | .letIn b v e, st =>
    have hb := st.declare_fills .letVar b
    have hv := infer_fills v (st.declare b).2
    bears_andThen (.letIn hb hv (.refl e)) fun _ _ =>
      bears_unifyThen (.letIn hb hv (.refl e)) fun st =>
        bears_leaving (.letIn (hb.resolve st.refresh) hv (infer_fills e _))
  | .letRec fn args body rest, st =>
    have hfn := st.declare_fills .recFunc fn
    have hargs := ((st.declare fn).2.pushMono _ _).enter_fills .recArg args
    have hbody := infer_fills body _
    bears_andThen (.letRec hfn hargs hbody (.refl rest)) fun _ _ =>
      bears_leaveThen (.letRec hfn hargs hbody (.refl rest)) fun _ =>
        bears_unifyThen (.letRec hfn hargs hbody (.refl rest)) fun st =>
          bears_leaving (.letRec (hfn.resolve st.refresh)
            (Binding.Fills.map_resolve hargs st.refresh) hbody (infer_fills rest _))
  | .app fn args _, st =>
    have hfn := infer_fills fn st
    have hslot := fun t u => (fun hkind => absurd rfl hkind : SlotRule.declared .application t u)
    bears_andThen (.app hfn (List.forall₂_same.2 fun c _ => .refl c) (hslot _ _)) fun st _ =>
      have hargs := inferAll_fills 1 args st
      bears_andThen (.app hfn hargs (hslot _ _)) fun _ _ =>
        bears_unifyThen (.app hfn hargs (hslot _ _)) fun _ => .app hfn hargs (hslot _ _)
  | .tuple es, st =>
    have h := inferAll_fills 0 es st
    bears_andThen (.tuple h) fun _ _ => .tuple h
  | .letTuple vars v e, st =>
    have hvars := st.enter_fills .tupleVar vars
    have hv := infer_fills v (st.enter vars).2
    bears_andThen (.letTuple hvars hv (.refl e)) fun _ _ =>
      bears_leaveThen (.letTuple hvars hv (.refl e)) fun _ =>
        bears_unifyThen (.letTuple hvars hv (.refl e)) fun st =>
          bears_leaving (.letTuple (Binding.Fills.map_resolve hvars st.refresh) hv
            (infer_fills e _))
  | .foreign _, _ => .foreign

theorem inferAll_fills (i : Nat) : (es : List Expr) → (st : State) →
    (inferAll i es st).Bears (List.Forall₂ (Fills .declared) es)
  | [], _ => .nil
  | e :: es, st =>
    have h := infer_fills e st
    bears_andThen (.cons h (List.forall₂_same.2 fun c _ => .refl c)) fun st _ =>
      have hs := inferAll_fills (i + 1) es st
      bears_andThen (.cons h hs) fun _ _ => .cons h hs

end

end Runs

end LetPoly
