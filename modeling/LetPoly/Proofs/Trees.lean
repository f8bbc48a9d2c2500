import LetPoly.Expr.Slots
import LetPoly.Proofs.Substitution

/-!
# Trees and their slots

Updating slots changes nothing about the shape of a tree: the same paths lead to the same nodes. A
property of all nodes is one of the root and of all nodes of the children, and an update that makes
no difference to any slot makes none to the tree.

## Main definitions

* `Expr.Everywhere`: a property of all nodes of a tree.

## Main results

* `Expr.everywhere_iff`, `Expr.Everywhere.mapSlots`: properties of all nodes, node by node.
* `Expr.places_mapSlots`, `Expr.at?_mapSlots`: the nodes of an updated tree.
* `Expr.mapSlots_congr`, `Expr.mapSlots_mapSlots`: updates that agree, and updates in a row.
* `Expr.forall_of_mapSlots_eq_self`: updates that make no difference.
-/

namespace LetPoly

namespace Expr

/-! ### Nodes -/

/-- The nodes of a tree are its root and the nodes of its children. -/
theorem places_eq {e : Expr} (h : e.isAbsent = false) :
    e.places = ([], e) :: placesFrom 0 e.children := by
  cases e with
  | absent => cases h
  | _ => simp [places, placesFrom, children]

/-- The node of an updated tree at the same place. -/
def mapNode (f : Ty → Ty) (p : Path × Expr) : Path × Expr :=
  (p.1, p.2.mapSlots f)

theorem under_map_mapNode (f : Ty → Ty) (i : Nat) (nodes : List (Path × Expr)) :
    under i (nodes.map (mapNode f)) = (under i nodes).map (mapNode f) := by
  simp only [under, List.map_map]
  rfl

mutual

theorem places_mapSlots (f : Ty → Ty) :
    (e : Expr) → (e.mapSlots f).places = e.places.map (mapNode f)
  | .absent | .unit | .bool _ | .int _ | .var _ | .foreign _ => rfl
  | .not e | .neg e => by
    rw [mapSlots, places, places_mapSlots f e, under_map_mapNode]
    rfl
  | .arith _ l r | .eq l r | .le l r | .letIn _ l r | .letRec _ _ l r | .letTuple _ l r => by
    rw [mapSlots, places, places_mapSlots f l, places_mapSlots f r, under_map_mapNode,
      under_map_mapNode, ← List.map_append]
    rfl
  | .ite c e₁ e₂ => by
    rw [mapSlots, places, places_mapSlots f c, places_mapSlots f e₁, places_mapSlots f e₂,
      under_map_mapNode, under_map_mapNode, under_map_mapNode, ← List.map_append,
      ← List.map_append]
    rfl
  | .app fn args _ => by
    rw [mapSlots, places, places_mapSlots f fn, placesFrom_mapSlotsAll f 1 args, under_map_mapNode,
      ← List.map_append]
    rfl
  | .tuple es => by
    rw [mapSlots, places, placesFrom_mapSlotsAll f 0 es]
    rfl

theorem placesFrom_mapSlotsAll (f : Ty → Ty) : (i : Nat) → (es : List Expr) →
    placesFrom i (mapSlotsAll f es) = (placesFrom i es).map (mapNode f)
  | _, [] => rfl
  | i, e :: es => by
    rw [mapSlotsAll, placesFrom, places_mapSlots f e, placesFrom_mapSlotsAll f (i + 1) es,
      under_map_mapNode, ← List.map_append]
    rfl

end

/-- All nodes of the tree satisfy `P`. -/
def Everywhere (P : Expr → Prop) (e : Expr) : Prop :=
  ∀ p ∈ e.places, P p.2

variable {P Q : Expr → Prop}

theorem forall_mem_placesFrom {es : List Expr} {i : Nat} :
    (∀ p ∈ placesFrom i es, P p.2) ↔ ∀ e ∈ es, e.Everywhere P := by
  induction es generalizing i with
  | nil => simp [placesFrom]
  | cons e es ih =>
    rw [placesFrom, List.forall_mem_append, ih, List.forall_mem_cons, under, List.forall_mem_map]
    rfl

theorem everywhere_iff {e : Expr} (h : e.isAbsent = false) :
    e.Everywhere P ↔ P e ∧ ∀ c ∈ e.children, c.Everywhere P := by
  rw [Everywhere, places_eq h, List.forall_mem_cons, forall_mem_placesFrom]

/-- What holds of every node with updated slots holds everywhere in the updated tree. -/
theorem Everywhere.mapSlots {f : Ty → Ty} {e : Expr} (h : e.Everywhere P)
    (hf : ∀ n, P n → Q (n.mapSlots f)) : (e.mapSlots f).Everywhere Q := by
  rw [Everywhere, places_mapSlots, List.forall_mem_map]
  exact fun p hp => hf p.2 (h p hp)

theorem mapSlotsAll_eq_map (f : Ty → Ty) (es : List Expr) :
    mapSlotsAll f es = es.map (·.mapSlots f) := by
  induction es with
  | nil => rfl
  | cons e es ih => rw [mapSlotsAll, ih, List.map_cons]

theorem children_mapSlots (f : Ty → Ty) (e : Expr) :
    (e.mapSlots f).children = e.children.map (·.mapSlots f) := by
  cases e with
  | app fn args t => rw [mapSlots, children, mapSlotsAll_eq_map, children, List.map_cons]
  | tuple es => rw [mapSlots, children, mapSlotsAll_eq_map, children]
  | _ => rfl

/-- The same path leads to the updated node. -/
theorem at?_mapSlots (f : Ty → Ty) (p : Path) (e : Expr) :
    (e.mapSlots f).at? p = (e.at? p).map (·.mapSlots f) := by
  induction p generalizing e with
  | nil => rfl
  | cons i p ih =>
    rw [at?, at?, children_mapSlots, List.getElem?_map]
    cases e.children[i]? with
    | none => rfl
    | some c => exact ih c

/-! ### Slots -/

/-- A property of all slots, node by node. -/
theorem forall_mem_slots {p : Slot → Prop} {e : Expr} :
    (∀ s ∈ e.slots, p s) ↔ e.Everywhere fun n => ∀ s ∈ n.ownSlots, p s :=
  List.forall_mem_flatMap

theorem sizeOf_lt_of_mem_children {c e : Expr} (h : c ∈ e.children) : sizeOf c < sizeOf e := by
  cases e with
  | app fn args t =>
    rcases List.mem_cons.1 h with rfl | h
    · simp only [app.sizeOf_spec]
      omega
    · have := List.sizeOf_lt_of_mem h
      simp only [app.sizeOf_spec]
      omega
  | tuple es =>
    have : sizeOf c < sizeOf es := List.sizeOf_lt_of_mem h
    simp only [tuple.sizeOf_spec]
    omega
  | _ => grind [children]

/-- Induction over trees, with one hypothesis for each child. -/
@[elab_as_elim] theorem ind {motive : Expr → Prop}
    (node : ∀ e, (∀ c ∈ e.children, motive c) → motive e) (e : Expr) : motive e :=
  node e fun c _ => ind node c
termination_by sizeOf e
decreasing_by exact sizeOf_lt_of_mem_children ‹_›

theorem mapSlot_congr {f g : Ty → Ty} {b : Binding} (h : f b.slot = g b.slot) :
    b.mapSlot f = b.mapSlot g := by
  rw [Binding.mapSlot, Binding.mapSlot, h]

/-- Updates that do the same to the slots of a node and to its children do the same to the node. -/
theorem mapSlots_congr_node {f g : Ty → Ty} {e : Expr}
    (hown : ∀ s ∈ e.ownSlots, f s.type = g s.type)
    (hc : ∀ c ∈ e.children, c.mapSlots f = c.mapSlots g) : e.mapSlots f = e.mapSlots g := by
  cases e with
  | absent | unit | bool _ | int _ | var _ | foreign _ => rfl
  | not e | neg e => rw [mapSlots, mapSlots, hc e (.head _)]
  | arith _ l r | eq l r | le l r =>
    rw [mapSlots, mapSlots, hc l (.head _), hc r (.tail _ (.head _))]
  | ite c e₁ e₂ =>
    rw [mapSlots, mapSlots, hc c (.head _), hc e₁ (.tail _ (.head _)),
      hc e₂ (.tail _ (.tail _ (.head _)))]
  | letIn b v e =>
    rw [mapSlots, mapSlots, mapSlot_congr (hown _ (.head _)), hc v (.head _),
      hc e (.tail _ (.head _))]
  | letRec fn args body rest =>
    have hargs : args.map (·.mapSlot f) = args.map (·.mapSlot g) := List.map_congr_left fun b hb =>
      mapSlot_congr (hown ⟨.recArg, b.name, b.slot⟩
        (List.mem_cons_of_mem _ (List.mem_map_of_mem hb)))
    rw [mapSlots, mapSlots, mapSlot_congr (hown _ (.head _)), hargs, hc body (.head _),
      hc rest (.tail _ (.head _))]
  | app fn args t =>
    have hargs : args.map (·.mapSlots f) = args.map (·.mapSlots g) :=
      List.map_congr_left fun c hmem => hc c (.tail _ hmem)
    have ht : f t = g t := hown _ (.head _)
    rw [mapSlots, mapSlots, mapSlotsAll_eq_map, mapSlotsAll_eq_map, hc fn (.head _), hargs, ht]
  | tuple es =>
    have hes : es.map (·.mapSlots f) = es.map (·.mapSlots g) := List.map_congr_left hc
    rw [mapSlots, mapSlots, mapSlotsAll_eq_map, mapSlotsAll_eq_map, hes]
  | letTuple vars v e =>
    have hvars : vars.map (·.mapSlot f) = vars.map (·.mapSlot g) := List.map_congr_left fun b hb =>
      mapSlot_congr (hown ⟨.tupleVar, b.name, b.slot⟩ (List.mem_map_of_mem hb))
    rw [mapSlots, mapSlots, hvars, hc v (.head _), hc e (.tail _ (.head _))]

/-- Updates that do the same to every slot do the same to the tree. -/
theorem mapSlots_congr {f g : Ty → Ty} {e : Expr} (h : ∀ s ∈ e.slots, f s.type = g s.type) :
    e.mapSlots f = e.mapSlots g := by
  rw [forall_mem_slots] at h
  induction e using ind with
  | node e ih =>
    cases hroot : e.isAbsent with
    | true =>
      cases e with
      | absent => rfl
      | _ => cases hroot
    | false =>
      obtain ⟨hown, hchildren⟩ := (everywhere_iff hroot).1 h
      exact mapSlots_congr_node hown fun c hc => ih c hc (hchildren c hc)

theorem mapSlots_id (e : Expr) : e.mapSlots id = e := by
  have hslot : ∀ b : Binding, b.mapSlot id = b := fun b => by
    rw [Binding.mapSlot]
    split <;> rfl
  have hslots : ∀ bs : List Binding, bs.map (·.mapSlot id) = bs := fun bs =>
    (List.map_congr_left fun b _ => hslot b).trans (List.map_id' bs)
  have hall : ∀ es : List Expr, (∀ c ∈ es, c.mapSlots id = c) → mapSlotsAll id es = es :=
    fun es h => (mapSlotsAll_eq_map id es).trans ((List.map_congr_left h).trans (List.map_id' es))
  induction e using ind with
  | node e ih =>
    cases e with
    | absent | unit | bool _ | int _ | var _ | foreign _ => rfl
    | not e | neg e => rw [mapSlots, ih e (.head _)]
    | arith _ l r | eq l r | le l r => rw [mapSlots, ih l (.head _), ih r (.tail _ (.head _))]
    | ite c e₁ e₂ =>
      rw [mapSlots, ih c (.head _), ih e₁ (.tail _ (.head _)), ih e₂ (.tail _ (.tail _ (.head _)))]
    | letIn b v e => rw [mapSlots, hslot, ih v (.head _), ih e (.tail _ (.head _))]
    | letRec fn args body rest =>
      rw [mapSlots, hslot, hslots, ih body (.head _), ih rest (.tail _ (.head _))]
    | app fn args t =>
      rw [mapSlots, ih fn (.head _), hall args fun c hc => ih c (.tail _ hc), id, ite_self]
    | tuple es => rw [mapSlots, hall es ih]
    | letTuple vars v e => rw [mapSlots, hslots, ih v (.head _), ih e (.tail _ (.head _))]

theorem mapSlots_eq_self {f : Ty → Ty} {e : Expr} (h : ∀ s ∈ e.slots, f s.type = s.type) :
    e.mapSlots f = e :=
  (mapSlots_congr h).trans e.mapSlots_id

private theorem ite_isAbsent {f g : Ty → Ty} (hg : g .absent = .absent) (t : Ty) :
    (if (if t.isAbsent then t else f t).isAbsent then if t.isAbsent then t else f t
      else g (if t.isAbsent then t else f t)) = if t.isAbsent then t else g (f t) := by
  by_cases ht : t.isAbsent = true
  · simp only [ht, if_true]
  · simp only [ht, if_false, Bool.false_eq_true]
    cases f t <;> simp [Ty.isAbsent, hg]

private theorem mapSlot_mapSlot {f g : Ty → Ty} (hg : g .absent = .absent) (b : Binding) :
    (b.mapSlot f).mapSlot g = b.mapSlot fun t => g (f t) := by
  have hslot : ∀ (f : Ty → Ty) (b : Binding),
      b.mapSlot f = ⟨b.name, if b.slot.isAbsent then b.slot else f b.slot⟩ := fun f b => by
    rw [Binding.mapSlot]
    split <;> rfl
  simp only [hslot, ite_isAbsent hg]

/-- Two updates in a row are one, if the second one fills no slot. -/
theorem mapSlots_mapSlots {f g : Ty → Ty} (hg : g .absent = .absent) (e : Expr) :
    (e.mapSlots f).mapSlots g = e.mapSlots fun t => g (f t) := by
  have hslots : ∀ bs : List Binding, (bs.map (·.mapSlot f)).map (·.mapSlot g) =
      bs.map (·.mapSlot fun t => g (f t)) := fun bs =>
    (List.map_map ..).trans (List.map_congr_left fun b _ => mapSlot_mapSlot hg b)
  have hall : ∀ es : List Expr,
      (∀ c ∈ es, (c.mapSlots f).mapSlots g = c.mapSlots fun t => g (f t)) →
        mapSlotsAll g (mapSlotsAll f es) = mapSlotsAll (fun t => g (f t)) es := fun es h => by
    rw [mapSlotsAll_eq_map, mapSlotsAll_eq_map, mapSlotsAll_eq_map, List.map_map]
    exact List.map_congr_left h
  induction e using ind with
  | node e ih =>
    cases e with
    | absent | unit | bool _ | int _ | var _ | foreign _ => rfl
    | not e | neg e => simp only [mapSlots, ih e (.head _)]
    | arith _ l r | eq l r | le l r =>
      simp only [mapSlots, ih l (.head _), ih r (.tail _ (.head _))]
    | ite c e₁ e₂ =>
      simp only [mapSlots, ih c (.head _), ih e₁ (.tail _ (.head _)),
        ih e₂ (.tail _ (.tail _ (.head _)))]
    | letIn b v e =>
      simp only [mapSlots, mapSlot_mapSlot hg, ih v (.head _), ih e (.tail _ (.head _))]
    | letRec fn args body rest =>
      simp only [mapSlots, mapSlot_mapSlot hg, hslots, ih body (.head _),
        ih rest (.tail _ (.head _))]
    | app fn args t =>
      simp only [mapSlots, ite_isAbsent hg, ih fn (.head _),
        hall args fun c hc => ih c (.tail _ hc)]
    | tuple es => simp only [mapSlots, hall es ih]
    | letTuple vars v e =>
      simp only [mapSlots, hslots, ih v (.head _), ih e (.tail _ (.head _))]

theorem map_type_ownSlots_mapSlots (f : Ty → Ty) (e : Expr) :
    (e.mapSlots f).ownSlots.map (·.type) =
      e.ownSlots.map fun s => if s.type.isAbsent then s.type else f s.type := by
  have hslot : ∀ b : Binding,
      (b.mapSlot f).slot = if b.slot.isAbsent then b.slot else f b.slot := fun b => by
    rw [Binding.mapSlot, apply_ite Binding.slot]
  cases e with
  | letIn b v e => simp only [mapSlots, ownSlots, List.map_cons, List.map_nil, hslot]
  | letRec fn args body rest =>
    simp only [mapSlots, ownSlots, List.map_cons, List.map_map, Function.comp_def, hslot]
  | letTuple vars v e => simp only [mapSlots, ownSlots, List.map_map, Function.comp_def, hslot]
  | _ => rfl

theorem map_type_slots_mapSlots (f : Ty → Ty) (e : Expr) :
    (e.mapSlots f).slots.map (·.type) =
      e.slots.map fun s => if s.type.isAbsent then s.type else f s.type := by
  simp only [slots, places_mapSlots, List.flatMap_map, List.map_flatMap]
  exact List.flatMap_congr fun p _ => map_type_ownSlots_mapSlots f p.2

/-- An update that makes no difference to the tree makes none to a filled slot. -/
theorem forall_of_mapSlots_eq_self {f : Ty → Ty} {e : Expr} (h : e.mapSlots f = e) :
    ∀ s ∈ e.slots, s.type.isAbsent = false → f s.type = s.type := by
  have htypes := map_type_slots_mapSlots f e
  rw [h] at htypes
  intro s hs habsent
  have hsame := List.map_inj_left.1 htypes s hs
  rw [habsent, if_neg Bool.false_ne_true] at hsame
  exact hsame.symm

end Expr

end LetPoly
