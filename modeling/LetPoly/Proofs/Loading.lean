import LetPoly.Program.Load
import LetPoly.Proofs.Annotation
import LetPoly.Proofs.Filling

/-!
# Loaded programs

What is loaded from a document is a whole tree: no node is missing or foreign, and each node has the
position where it was read. The slots are empty, hold a type that the text names, or, once the
bindings without types have been supplied with variables, a variable.

## Main definitions

* `Ty.Proper`: no type is missing inside, and all constants are builtin.
* `Expr.Whole`: no node is missing or foreign.
* `Head.Takes`: how many parts belong to the head of an expression.
* `SlotRule.supplied`: the empty slot of a binding may be given a variable.

## Main results

* `takes_of_outline`: the form of a node has as many parts as its head takes.
* `sound_of_load`: loading a node gives a whole tree with a position for each node.
* `Program.sound_of_ofNode`: the same for the program that a node holds.
-/

namespace LetPoly

open Text (Position)
open Yaml (Node)

/-! ### Trees without gaps -/

/-- No type is missing inside, and all constants are builtin. -/
inductive Ty.Proper : Ty → Prop where
  | const {n : String} (h : n ∈ Ty.builtin) : Proper (.const n)
  | var (v : Int) : Proper (.var v)
  | arrow {args : List Ty} {ret : Ty} (hargs : ∀ a ∈ args, Proper a) (hret : Proper ret) :
    Proper (.arrow args ret)
  | tuple {elems : List Ty} (h : ∀ a ∈ elems, Proper a) : Proper (.tuple elems)

theorem Ty.Proper.complete {t : Ty} (h : t.Proper) : t.Complete := by
  induction h with
  | const _ => exact complete_const _
  | var v => exact complete_var v
  | arrow _ _ iha ihr => exact complete_arrow.2 ⟨iha, ihr⟩
  | tuple _ ih => exact complete_tuple.2 ih

/-- No node of the tree is missing or foreign. -/
inductive Expr.Whole : Expr → Prop where
  | node {e : Expr} (hroot : e.isAbsent = false) (hkind : e.foreign? = none)
    (hchildren : ∀ c ∈ e.children, Whole c) : Whole e

namespace Expr

theorem Fills.whole {rule : SlotRule} {e a : Expr} (h : Fills rule e a) (he : e.Whole) :
    a.Whole := by
  induction he generalizing a with
  | @node e hroot hkind _ ih =>
    refine .node (h.isAbsent.trans hroot) (h.foreign?.trans hkind) fun c' hc' => ?_
    obtain ⟨c, hc, hfills⟩ := exists_of_forall₂ h.children hc'
    exact ih c hc hfills

theorem mem_placesFrom {es : List Expr} {i k : Nat} {c n : Expr} {p : Path}
    (hc : es[i]? = some c) (h : (p, n) ∈ c.places) : ((k + i) :: p, n) ∈ placesFrom k es := by
  induction es generalizing i k with
  | nil => cases hc
  | cons e es ih =>
    rw [placesFrom, List.mem_append]
    cases i with
    | zero =>
      obtain rfl := Option.some.inj hc
      exact .inl (List.mem_map_of_mem h)
    | succ i =>
      refine .inr ?_
      rw [Nat.add_comm i 1, ← Nat.add_assoc]
      exact ih hc

theorem length_placesFrom (es : List Expr) (k : Nat) :
    (placesFrom k es).length = (es.map (·.places.length)).sum := by
  induction es generalizing k with
  | nil => rfl
  | cons e es ih =>
    rw [placesFrom, List.length_append, ih, under, List.length_map, List.map_cons, List.sum_cons]

/-- In a whole tree, what is found at the end of a path is listed with the path. -/
theorem Whole.mem_places {e : Expr} (he : e.Whole) {p : Path} {n : Expr} (h : e.at? p = some n) :
    (p, n) ∈ e.places := by
  induction p generalizing e with
  | nil =>
    obtain ⟨hroot, -, -⟩ := he
    obtain rfl := Option.some.inj h
    rw [places_eq hroot]
    exact List.mem_cons_self
  | cons i p ih =>
    obtain ⟨hroot, -, hchildren⟩ := he
    obtain ⟨c, hc, hn⟩ := Option.bind_eq_some_iff.1 h
    rw [places_eq hroot]
    have hmem := mem_placesFrom (k := 0) hc (ih (hchildren c (List.mem_of_getElem? hc)) hn)
    rw [Nat.zero_add] at hmem
    exact List.mem_cons_of_mem _ hmem

/-- The expression has the given children and no type in its slots but proper ones. -/
structure Assembled (e : Expr) (es : List Expr) : Prop where
  children : e.children = es
  isAbsent : e.isAbsent = false
  foreign : e.foreign? = none
  slots : ∀ s ∈ e.ownSlots, s.type = .absent ∨ s.type.Proper

end Expr

/-! ### Outlines -/

namespace Head

/-- So many parts belong to the head, and its bindings have proper types or none. -/
def Takes : Head → Nat → Prop
  | .leaf e, k => k = 0 ∧ e.Assembled []
  | .tuple, _ => True
  | .not, k | .neg, k => k = 1
  | .arith _, k | .eq, k | .le, k => k = 2
  | .ite, k => k = 3
  | .letIn b, k => k = 2 ∧ b.Fits Ty.Proper
  | .letRec fn args, k => k = 2 ∧ fn.Fits Ty.Proper ∧ ∀ b ∈ args, b.Fits Ty.Proper
  | .app, k => 0 < k
  | .letTuple vars, k => k = 2 ∧ ∀ b ∈ vars, b.Fits Ty.Proper

/-- With as many parts as its head takes, an expression has them as its children. -/
theorem Takes.assembled {head : Head} {es : List Expr} (h : head.Takes es.length) :
    (head.assemble es).Assembled es := by
  cases head with
  | leaf e =>
    obtain rfl := List.length_eq_zero_iff.1 h.1
    exact h.2
  | tuple => exact ⟨rfl, rfl, rfl, fun _ hs => absurd hs List.not_mem_nil⟩
  | not | neg =>
    obtain ⟨e, rfl⟩ := List.length_eq_one_iff.1 h
    exact ⟨rfl, rfl, rfl, fun _ hs => absurd hs List.not_mem_nil⟩
  | arith | eq | le =>
    obtain ⟨l, r, rfl⟩ := List.length_eq_two.1 h
    exact ⟨rfl, rfl, rfl, fun _ hs => absurd hs List.not_mem_nil⟩
  | ite =>
    obtain ⟨c, e₁, e₂, rfl⟩ := List.length_eq_three.1 h
    exact ⟨rfl, rfl, rfl, fun _ hs => absurd hs List.not_mem_nil⟩
  | letIn b =>
    obtain ⟨v, e, rfl⟩ := List.length_eq_two.1 h.1
    exact ⟨rfl, rfl, rfl, List.forall_mem_singleton.2 h.2⟩
  | letRec fn args =>
    obtain ⟨body, rest, rfl⟩ := List.length_eq_two.1 h.1
    exact ⟨rfl, rfl, rfl, List.forall_mem_cons.2 ⟨h.2.1, List.forall_mem_map.2 h.2.2⟩⟩
  | app =>
    obtain ⟨fn, args, rfl⟩ := List.exists_cons_of_length_pos h
    exact ⟨rfl, rfl, rfl, List.forall_mem_singleton.2 (.inl rfl)⟩
  | letTuple vars =>
    obtain ⟨v, e, rfl⟩ := List.length_eq_two.1 h.1
    exact ⟨rfl, rfl, rfl, List.forall_mem_map.2 h.2⟩

theorem takes_operator {name : String} {head : Head} (h : operator? name = some head) :
    head.Takes 2 := by
  unfold operator? at h
  split at h <;> cases h <;> rfl

end Head

theorem forall_fits_untyped (names : List String) :
    ∀ b ∈ names.map untyped, b.Fits Ty.Proper :=
  List.forall_mem_map.2 fun _ _ => .inl rfl

theorem cases_of_literal {q : Position} {tag text : String} {e : Expr}
    (h : literal q tag text = .ok e) :
    (∃ n, e = .int n) ∨ (∃ b, e = .bool b) ∨ e = .unit ∨ ∃ x, e = .var x := by
  unfold literal at h
  grind [reject]

/-- A literal or a variable is an expression without parts. -/
theorem assembled_of_literal {q : Position} {tag text : String} {e : Expr}
    (h : literal q tag text = .ok e) : e.Assembled [] := by
  obtain ⟨n, rfl⟩ | ⟨b, rfl⟩ | rfl | ⟨x, rfl⟩ := cases_of_literal h <;>
    exact ⟨rfl, rfl, rfl, fun _ hs => absurd hs List.not_mem_nil⟩

theorem eq_of_typeName {n : Node} {t : Ty} (h : typeName n = .ok t) :
    t = .int ∨ t = .bool ∨ t = .unit := by
  unfold typeName at h
  split at h
  · split at h
    · rename_i htext
      obtain rfl := Except.ok.inj h
      simpa [Ty.int, Ty.bool, Ty.unit, or_assoc] using htext
    · exact absurd h reject_ne_ok
  · exact absurd h reject_ne_ok

theorem proper_of_typeName {n : Node} {t : Ty} (h : typeName n = .ok t) : t.Proper := by
  rcases eq_of_typeName h with rfl | rfl | rfl <;> exact .const (by decide)

/-! ### Forms -/

section Forms

variable {q : Position} {n : Node} {o : Outline}

theorem takes_of_iteOutline (h : iteOutline q n = .ok o) : o.head.Takes o.parts.length := by
  simp only [iteOutline, checked_bind_eq_ok, checked_pure_eq_ok] at h
  obtain ⟨_, -, _, -, _, -, _, -, rfl⟩ := h
  rfl

/-- A name that is no type comes to light later. -/
theorem takes_of_letOutline (h : letOutline q n = .ok o) (hd : o.deferred = none) :
    o.head.Takes o.parts.length := by
  simp only [letOutline, checked_bind_eq_ok] at h
  obtain ⟨f, -, _, -, _, -, _, -, _, -, h⟩ := h
  split at h <;> simp only [checked_pure_eq_ok] at h <;> subst h
  · exact ⟨rfl, .inl rfl⟩
  · rename_i ht
    obtain ⟨_, -, ht⟩ := Option.map_eq_some_iff.1 ht
    exact ⟨rfl, .inr (proper_of_typeName ht)⟩
  · cases hd

theorem takes_of_letRecOutline (h : letRecOutline q n = .ok o) : o.head.Takes o.parts.length := by
  simp only [letRecOutline, checked_bind_eq_ok, checked_pure_eq_ok] at h
  obtain ⟨_, -, _, -, _, -, _, -, _, -, _, -, args, -, rfl⟩ := h
  exact ⟨rfl, .inl rfl, forall_fits_untyped args⟩

theorem takes_of_appOutline (h : appOutline q n = .ok o) : o.head.Takes o.parts.length := by
  simp only [appOutline, checked_bind_eq_ok] at h
  obtain ⟨_, -, _, -, h⟩ := h
  split at h <;> simp only [checked_pure_eq_ok] at h <;> subst h <;> exact Nat.zero_lt_succ _

theorem takes_of_letTupleOutline (h : letTupleOutline q n = .ok o) :
    o.head.Takes o.parts.length := by
  simp only [letTupleOutline, checked_bind_eq_ok, checked_pure_eq_ok] at h
  obtain ⟨_, -, _, -, _, -, _, -, names, -, rfl⟩ := h
  exact ⟨rfl, forall_fits_untyped names⟩

theorem length_of_operands {items : List Node} (h : operands n = .ok items) :
    items.length = 2 := by
  unfold operands at h
  split at h
  · split at h
    · exact Except.ok.inj h ▸ ‹_›
    · exact absurd h reject_ne_ok
  · exact absurd h reject_ne_ok

theorem takes_of_form {name : String} (h : form q name n = .ok o) (hd : o.deferred = none) :
    o.head.Takes o.parts.length := by
  unfold form at h
  split at h
  · rename_i hop
    obtain ⟨items, hi, h⟩ := checked_bind_eq_ok.1 h
    simp only [checked_pure_eq_ok] at h
    subst h
    exact length_of_operands hi ▸ Head.takes_operator hop
  · split at h
    · obtain ⟨x, -, h⟩ := checked_bind_eq_ok.1 h
      simp only [checked_pure_eq_ok] at h
      subst h
      exact ⟨rfl, rfl, rfl, rfl, fun _ hs => absurd hs List.not_mem_nil⟩
    · obtain rfl := Except.ok.inj h
      rfl
    · obtain rfl := Except.ok.inj h
      rfl
    · obtain ⟨items, -, h⟩ := checked_bind_eq_ok.1 h
      simp only [checked_pure_eq_ok] at h
      subst h
      trivial
    · exact takes_of_iteOutline h
    · exact takes_of_letOutline h hd
    · exact takes_of_letRecOutline h
    · exact takes_of_appOutline h
    · exact takes_of_letTupleOutline h
    · exact absurd h reject_ne_ok

/-- The form of a node has as many parts as its head takes. -/
theorem takes_of_outline (h : outline n = .ok o) (hd : o.deferred = none) :
    o.head.Takes o.parts.length := by
  fun_induction outline n with
  | case1 _ _ target ih => exact ih h
  | case2 q tag text =>
    obtain ⟨e, he, h⟩ := checked_bind_eq_ok.1 h
    simp only [checked_pure_eq_ok] at h
    subst h
    exact ⟨rfl, assembled_of_literal he⟩
  | case3 q items =>
    obtain rfl := Except.ok.inj h
    trivial
  | case4 q key value => exact takes_of_form h hd
  | case5 => exact absurd h reject_ne_ok

end Forms

/-! ### Loaded trees -/

/-- The tree is whole, each node has a position, and the slots are empty or hold proper types. -/
structure Loaded.Sound (l : Loaded) : Prop where
  whole : l.tree.Whole
  positions : l.positions.length = l.tree.places.length
  slots : ∀ s ∈ l.tree.slots, s.type = .absent ∨ s.type.Proper

theorem forall₂_of_mapM {α β : Type} {f : α → Checked β} {xs : List α} {ys : List β}
    (h : xs.mapM f = .ok ys) : List.Forall₂ (fun x y => f x = .ok y) xs ys := by
  induction xs generalizing ys with
  | nil =>
    rw [List.mapM_nil, checked_pure_eq_ok] at h
    exact h ▸ .nil
  | cons x xs ih =>
    simp only [List.mapM_cons, checked_bind_eq_ok, checked_pure_eq_ok] at h
    obtain ⟨y, hy, ys, hys, rfl⟩ := h
    exact .cons hy (ih hys)

/-- What is put together from sound parts is sound. -/
theorem Outline.sound_finish {o : Outline} {parts : List Loaded} {l : Loaded}
    (htakes : o.deferred = none → o.head.Takes parts.length) (hparts : ∀ p ∈ parts, p.Sound)
    (h : o.finish parts = .ok l) : l.Sound := by
  unfold finish at h
  split at h
  · cases h
  · rename_i hd
    obtain rfl := Except.ok.inj h
    have hlen : (parts.map (·.tree)).length = parts.length := List.length_map ..
    have he := (hlen ▸ htakes hd : o.head.Takes (parts.map (·.tree)).length).assembled
    refine ⟨.node he.isAbsent he.foreign ?_, ?_, ?_⟩
    · rw [he.children, List.forall_mem_map]
      exact fun p hp => (hparts p hp).whole
    · rw [Expr.places_eq he.isAbsent, he.children, List.length_cons, List.length_cons,
        Expr.length_placesFrom, List.length_flatMap, List.map_map]
      congr 2
      exact List.map_congr_left fun p hp => (hparts p hp).positions
    · rw [Expr.forall_mem_slots, Expr.everywhere_iff he.isAbsent, he.children, List.forall_mem_map]
      exact ⟨he.slots, fun p hp => Expr.forall_mem_slots.1 (hparts p hp).slots⟩

/-- Loading a node gives a whole tree with a position for each node. -/
theorem sound_of_load {n : Node} {l : Loaded} (h : load n = .ok l) : l.Sound := by
  rw [load_eq] at h
  obtain ⟨o, ho, h⟩ := checked_bind_eq_ok.1 h
  obtain ⟨parts, hparts, h⟩ := checked_bind_eq_ok.1 h
  have hrel := forall₂_of_mapM hparts
  refine o.sound_finish (fun hd => hrel.length_eq ▸ takes_of_outline ho hd) (fun p hp => ?_) h
  obtain ⟨m, hm, hload⟩ := exists_of_forall₂ hrel hp
  exact sound_of_load hload
termination_by n
decreasing_by exact sizeOf_lt_of_outline ho hm

/-! ### Programs -/

/-- The empty slot of a binding may be given a variable. -/
def SlotRule.supplied : SlotRule := fun kind slot t =>
  t = slot ∨ kind ≠ .application ∧ slot = .absent ∧ ∃ v, t = .var v

namespace Expr

theorem fillWith_fills {kind : SlotKind} (hkind : kind ≠ .application) {bs : List Binding}
    {vs : List Int} (hlen : vs.length = bs.length) (hbs : ∀ b ∈ bs, b.slot.isAbsent = true) :
    List.Forall₂ (Binding.Fills .supplied kind) bs (fillWith bs vs) := by
  induction bs generalizing vs with
  | nil => exact .nil
  | cons b bs ih =>
    obtain ⟨v, vs, rfl⟩ := List.exists_of_length_succ vs hlen
    rw [List.forall_mem_cons] at hbs
    exact .cons ⟨rfl, .inr ⟨hkind, Ty.eq_absent_of_isAbsent hbs.1, v, rfl⟩⟩
      (ih (Nat.succ.inj hlen) hbs.2)

theorem fillGroup_fills (kind : SlotKind) (hkind : kind ≠ .application) (bs : List Binding)
    (g : Supply) : List.Forall₂ (Binding.Fills .supplied kind) bs (fillGroup bs g).1 := by
  rw [fillGroup]
  split
  · rename_i habs
    exact fillWith_fills hkind (g.length_freshList _) (List.all_eq_true.1 habs)
  · exact List.forall₂_same.2 fun _ _ => ⟨rfl, .inl rfl⟩

mutual

/-- Supplying the bindings with variables fills empty slots only. -/
theorem fillSlots_fills : (e : Expr) → (g : Supply) → Fills .supplied e (e.fillSlots g).1
  | .absent, _ => .absent
  | .unit, _ => .unit
  | .bool _, _ => .bool
  | .int _, _ => .int
  | .var _, _ => .var
  | .not e, g => .not (fillSlots_fills e g)
  | .neg e, g => .neg (fillSlots_fills e g)
  | .arith _ l r, g => .arith (fillSlots_fills l g) (fillSlots_fills r _)
  | .eq l r, g => .eq (fillSlots_fills l g) (fillSlots_fills r _)
  | .le l r, g => .le (fillSlots_fills l g) (fillSlots_fills r _)
  | .ite c e₁ e₂, g =>
    .ite (fillSlots_fills c g) (fillSlots_fills e₁ _) (fillSlots_fills e₂ _)
  | .letIn b v e, g => by
    simp only [fillSlots]
    split
    · rename_i habs
      exact .letIn ⟨rfl, .inr ⟨nofun, Ty.eq_absent_of_isAbsent habs, _, rfl⟩⟩
        (fillSlots_fills v g) (fillSlots_fills e _)
    · exact .letIn ⟨rfl, .inl rfl⟩ (fillSlots_fills v g) (fillSlots_fills e _)
  | .letRec fn args body rest, g => by
    have hbody := fillSlots_fills body g
    have hrest := fillSlots_fills rest (body.fillSlots g).2
    have hgroup := fillGroup_fills .recArg nofun (fn :: args)
      (rest.fillSlots (body.fillSlots g).2).2
    simp only [fillSlots]
    split
    · rename_i heq
      rw [heq] at hgroup
      obtain _ | ⟨hfn, hargs⟩ := hgroup
      exact .letRec ⟨hfn.name, hfn.slot.imp_right fun h => ⟨nofun, h.2⟩⟩ hargs hbody hrest
    · rename_i heq
      rw [heq] at hgroup
      cases hgroup
  | .app fn args _, g =>
    .app (fillSlots_fills fn g) (fillSlotsAll_fills args _) (.inl rfl)
  | .tuple es, g => .tuple (fillSlotsAll_fills es g)
  | .letTuple vars v e, g =>
    .letTuple (fillGroup_fills .tupleVar nofun vars _) (fillSlots_fills v g) (fillSlots_fills e _)
  | .foreign _, _ => .foreign

theorem fillSlotsAll_fills : (es : List Expr) → (g : Supply) →
    List.Forall₂ (Fills .supplied) es (fillSlotsAll es g).1
  | [], _ => .nil
  | e :: es, g => .cons (fillSlots_fills e g) (fillSlotsAll_fills es _)

end

end Expr

/-- The tree is whole, each node has a position, and the slots are empty or hold proper types. -/
structure Program.Sound (p : Program) : Prop where
  whole : p.tree.Whole
  positions : p.positions.length = p.tree.places.length
  slots : ∀ s ∈ p.tree.slots, s.type = .absent ∨ s.type.Proper

/-- The program that a node holds is whole, with a position for each node. -/
theorem Program.sound_of_ofNode {n : Node} {p : Program} (h : ofNode n = .ok p) : p.Sound := by
  simp only [ofNode, checked_bind_eq_ok, checked_pure_eq_ok] at h
  obtain ⟨l, hl, rfl⟩ := h
  have hsound := sound_of_load hl
  have hfills := l.tree.fillSlots_fills ⟨0⟩
  refine ⟨hfills.whole hsound.whole, hsound.positions.trans hfills.places.length_eq, ?_⟩
  intro s' hs'
  obtain ⟨s, hs, hslot⟩ := exists_of_forall₂ hfills.slots hs'
  rcases hslot.type with heq | ⟨-, -, v, heq⟩
  · exact heq ▸ hsound.slots s hs
  · exact .inr (heq ▸ .var v)

end LetPoly
