import LetPoly.Proofs.Origins
import LetPoly.Proofs.Reports

/-!
# The variables of a program

The bindings of a program that declare no type get variables when it is loaded. Each group of
bindings takes the next ids of the supply once everything inside of it has been supplied, so the ids
stand in the tree in no particular order; but each one is used, and none is used twice. That is so
too if a part of the document stands for several parts of the program: each of them gets variables
of its own.

## Main definitions

* `Expr.ownBindings`: the bindings of the node itself.
* `Allots`: some bindings after and before they have been supplied with the next ids.
* `Program.Linear`: what stands in the slots of a program.

## Main results

* `Expr.fillSlots_allots`: supplying a tree with variables takes the next ids, each one once.
* `Program.linear_of_ofNode`: the variables of a loaded program are the ids below its supply, each
  one in one slot, and constants stand only where the document names them.
-/

namespace LetPoly

open Yaml (Node)

/-! ### Groups of bindings -/

namespace Expr

/-- The bindings of the node itself. -/
def ownBindings : Expr → List Binding
  | .letIn b _ _ => [b]
  | .letRec fn args _ _ => fn :: args
  | .letTuple vars _ _ => vars
  | _ => []

/-- The bindings of a tree are those of its root and those of its children. -/
theorem bindings_eq (e : Expr) : e.bindings = e.ownBindings ++ bindingsAll e.children := by
  cases e <;> simp [bindings, ownBindings, children, bindingsAll]

/-- A node is supplied with variables after its children. -/
theorem fillSlots_eq (e : Expr) (g : Supply) :
    (e.fillSlots g).1.children = (fillSlotsAll e.children g).1 ∧
      ((e.fillSlots g).1.ownBindings, (e.fillSlots g).2) =
        fillGroup e.ownBindings (fillSlotsAll e.children g).2 := by
  cases e with
  | letIn b v e =>
    cases habs : b.slot.isAbsent <;>
      simp [fillSlots, fillSlotsAll, children, ownBindings, fillGroup, habs, Supply.freshList,
        fillWith]
  | letRec fn args body rest =>
    have hgroup := fillGroup_fills .recArg (by decide) (fn :: args)
      (rest.fillSlots (body.fillSlots g).2).2
    rcases hfill : fillGroup (fn :: args) (rest.fillSlots (body.fillSlots g).2).2 with
      ⟨_ | ⟨fn', args'⟩, g'⟩
    · rw [hfill] at hgroup
      cases hgroup
    · simp [fillSlots, fillSlotsAll, children, ownBindings, hfill]
  | _ => exact ⟨rfl, rfl⟩

end Expr

/-- The bindings `bs'` are `bs` after the supply has gone from `g` to `g'`: no slot is empty any
more, and the ids handed out have been added to the variables, each one once. -/
structure Allots (bs bs' : List Binding) (g g' : Supply) : Prop where
  filled : ∀ b ∈ bs', b.slot.isAbsent = false
  ids : ∃ k, (reserve bs').Perm (reserve bs ++ (g.freshList k).1) ∧ g' = (g.freshList k).2

namespace Allots

variable {bs bs' cs cs' : List Binding} {g g' g'' : Supply}

theorem nil (g : Supply) : Allots [] [] g g :=
  ⟨nofun, 0, .refl _, rfl⟩

/-- Two groups are supplied one after the other. -/
theorem append (h : Allots bs bs' g g') (h' : Allots cs cs' g' g'') :
    Allots (bs ++ cs) (bs' ++ cs') g g'' := by
  refine ⟨List.forall_mem_append.2 ⟨h.filled, h'.filled⟩, ?_⟩
  obtain ⟨j, hj, rfl⟩ := h.ids
  obtain ⟨k, hk, rfl⟩ := h'.ids
  refine ⟨j + k, ?_, by rw [Supply.freshList_add]⟩
  rw [Supply.freshList_add, reserve_append, reserve_append]
  refine (hj.append hk).trans ?_
  rw [List.append_assoc, List.append_assoc]
  exact (List.perm_append_comm_assoc _ _ _).append_left _

/-- The order in which bindings stand in the tree does not matter. -/
theorem comm (h : Allots (bs ++ cs) (bs' ++ cs') g g') : Allots (cs ++ bs) (cs' ++ bs') g g' := by
  obtain ⟨hfilled, k, hids, hg⟩ := h
  rw [List.forall_mem_append] at hfilled
  refine ⟨List.forall_mem_append.2 hfilled.symm, k, ?_, hg⟩
  rw [reserve_append, reserve_append] at hids ⊢
  exact List.perm_append_comm.trans (hids.trans (List.perm_append_comm.append_right _))

end Allots

/-- The bindings of a group have all types or none. -/
def Uniform (bs : List Binding) : Prop :=
  (∀ b ∈ bs, b.slot.isAbsent = true) ∨ ∀ b ∈ bs, b.slot.isAbsent = false

theorem reserve_fillWith {bs : List Binding} {vs : List Int} (h : vs.length = bs.length) :
    reserve (Expr.fillWith bs vs) = vs := by
  induction bs generalizing vs with
  | nil => exact (List.length_eq_zero_iff.1 h).symm
  | cons b bs ih =>
    obtain ⟨v, vs, rfl⟩ := List.exists_of_length_succ vs h
    exact congrArg (v :: ·) (ih (Nat.succ.inj h))

theorem isAbsent_of_mem_fillWith {bs : List Binding} {vs : List Int} {b : Binding}
    (h : b ∈ Expr.fillWith bs vs) : b.slot.isAbsent = false := by
  induction bs generalizing vs with
  | nil => cases h
  | cons b' bs ih =>
    cases vs with
    | nil => cases h
    | cons v vs =>
      rcases List.mem_cons.1 h with rfl | h
      · rfl
      · exact ih h

/-- A uniform group is supplied as a whole or left as it is. -/
theorem Uniform.allots {bs : List Binding} (h : Uniform bs) (g : Supply) :
    Allots bs (Expr.fillGroup bs g).1 g (Expr.fillGroup bs g).2 := by
  rw [Expr.fillGroup]
  split
  · rename_i hall
    rw [List.all_eq_true] at hall
    have hlen := g.length_freshList bs.length
    have hnone : reserve bs = [] := List.flatMap_eq_nil_iff.2 fun b hb => by
      rw [Ty.eq_absent_of_isAbsent (hall b hb)]
      rfl
    refine ⟨fun _ => isAbsent_of_mem_fillWith, bs.length, ?_, rfl⟩
    rw [reserve_fillWith hlen, hnone, List.nil_append]
  · rename_i hall
    rw [List.all_eq_true] at hall
    refine ⟨h.resolve_left hall, 0, ?_, rfl⟩
    rw [Supply.freshList, List.append_nil]

namespace Expr

theorem fillSlotsAll_allots {es : List Expr}
    (h : ∀ e ∈ es, ∀ g, Allots e.bindings (e.fillSlots g).1.bindings g (e.fillSlots g).2)
    (g : Supply) :
    Allots (bindingsAll es) (bindingsAll (fillSlotsAll es g).1) g (fillSlotsAll es g).2 := by
  induction es generalizing g with
  | nil => exact .nil g
  | cons e es ih =>
    rw [List.forall_mem_cons] at h
    exact (h.1 g).append (ih h.2 _)

/-- **Supplying a tree with variables takes the next ids, each one once**, and leaves no binding
without a type, if no group of bindings is mixed. -/
theorem fillSlots_allots {e : Expr} (h : e.Everywhere fun n => Uniform n.ownBindings) (g : Supply) :
    Allots e.bindings (e.fillSlots g).1.bindings g (e.fillSlots g).2 := by
  induction e using Expr.ind generalizing g with
  | node e ih =>
    cases hroot : e.isAbsent with
    | true =>
      cases e with
      | absent => exact .nil g
      | _ => cases hroot
    | false =>
      obtain ⟨hown, hchildren⟩ := (everywhere_iff hroot).1 h
      have hparts := fillSlotsAll_allots (fun c hc => ih c hc (hchildren c hc)) g
      have hgroup := hown.allots (fillSlotsAll e.children g).2
      obtain ⟨hc, hfill⟩ := e.fillSlots_eq g
      rw [← hfill] at hgroup
      rw [bindings_eq, bindings_eq (e.fillSlots g).1, hc]
      exact (hparts.append hgroup).comm

end Expr

/-! ### Nodes that have been read -/

theorem uniform_singleton (b : Binding) : Uniform [b] := by
  cases h : b.slot.isAbsent with
  | true => exact .inl (List.forall_mem_singleton.2 h)
  | false => exact .inr (List.forall_mem_singleton.2 h)

namespace Expr.ReadAs

variable {type? : Option Node} {e : Expr}

/-- A plain binding is a group of its own, and the other groups have no types. -/
theorem uniform (h : e.ReadAs type?) : Uniform e.ownBindings := by
  cases e with
  | letIn b v e => exact uniform_singleton b
  | letRec fn args body rest =>
    have hslots : ∀ s ∈ (letRec fn args body rest).ownSlots, s.type = .absent := h
    rw [ownSlots, List.forall_mem_cons, List.forall_mem_map] at hslots
    exact .inl (List.forall_mem_cons.2 ⟨congrArg Ty.isAbsent hslots.1, fun b hb =>
      congrArg Ty.isAbsent (hslots.2 b hb)⟩)
  | letTuple vars v e =>
    have hslots : ∀ s ∈ (letTuple vars v e).ownSlots, s.type = .absent := h
    rw [ownSlots, List.forall_mem_map] at hslots
    exact .inl fun b hb => congrArg Ty.isAbsent (hslots b hb)
  | _ => exact .inl nofun

theorem slots (h : e.ReadAs type?) : ∀ s ∈ e.ownSlots, s.type = .absent ∨
    s.kind = .letVar ∧ (s.type = .int ∨ s.type = .bool ∨ s.type = .unit) := by
  cases e with
  | letIn b v e =>
    refine List.forall_mem_singleton.2 ?_
    rcases h with ⟨t, -, ht⟩ | ⟨-, habs⟩
    · exact .inr ⟨rfl, eq_of_typeName ht⟩
    · exact .inl habs
  | _ => exact fun s hs => .inl (h s hs)

end Expr.ReadAs

/-! ### Programs -/

/-- What stands in the slots of a program that a node of a document holds. -/
structure Program.Linear (p : Program) (n : Node) : Prop where
  /-- No node is missing or foreign. -/
  whole : p.tree.Whole
  applications : ∀ s ∈ p.tree.slots, s.kind = .application → s.type = .absent
  /-- The slot of a binding holds a variable, or a constant if the binding is a plain one. -/
  bindings : ∀ s ∈ p.tree.slots, s.kind ≠ .application → (∃ v, s.type = .var v) ∨
    s.kind = .letVar ∧ (s.type = .int ∨ s.type = .bool ∨ s.type = .unit)
  /-- A plain binding has the type that the document has under the key for it, if there is one. -/
  declared : ∀ q b v e, p.tree.at? q = some (.letIn b v e) → ∃ m, n.part? q = some m ∧
    ((∃ t, m.typeKey? = some t ∧ typeName t = .ok b.slot) ∨
      m.typeKey? = none ∧ ∃ v, b.slot = .var v)
  /-- The ids below the supply are used, each one once, and no others. -/
  ids : ∀ v, p.tree.slotVars.count v = if 0 ≤ v ∧ v < p.supply.next then 1 else 0
  next : p.supply.next = p.tree.slotVars.length

namespace Expr

/-- The slots of applications have no variables if they are empty. -/
theorem slotVars_eq_reserve {e : Expr}
    (h : ∀ s ∈ e.slots, s.kind = .application → s.type = .absent) :
    e.slotVars = reserve e.bindings := by
  have hmap := congrArg (List.flatMap Ty.vars) e.map_slot_bindings
  rw [List.flatMap_map, List.flatMap_map] at hmap
  rw [slotVars, reserve, hmap]
  generalize e.slots = ss at h
  induction ss with
  | nil => rfl
  | cons s ss ih =>
    rw [List.forall_mem_cons] at h
    by_cases hkind : s.kind = .application
    · rw [List.flatMap_cons, ih h.2, h.1 hkind, List.filter_cons_of_neg (by simpa using hkind)]
      rfl
    · rw [List.flatMap_cons, ih h.2, List.filter_cons_of_pos (by simpa using hkind),
        List.flatMap_cons]

/-- The slot of a binding is filled if the bindings of the tree are. -/
theorem isAbsent_of_mem_slots {e : Expr} (h : ∀ b ∈ e.bindings, b.slot.isAbsent = false) {s : Slot}
    (hs : s ∈ e.slots) (hkind : s.kind ≠ .application) : s.type.isAbsent = false := by
  have hmem : s.type ∈ (e.slots.filter fun s => s.kind ≠ .application).map (·.type) :=
    List.mem_map_of_mem (List.mem_filter.2 ⟨hs, by simpa using hkind⟩)
  rw [← map_slot_bindings] at hmem
  obtain ⟨b, hb, heq⟩ := List.mem_map.1 hmem
  exact heq ▸ h b hb

end Expr

namespace Loaded

variable {n : Node} {l : Loaded}

/-- Every slot of a loaded tree is empty, or holds a constant on a plain binding. -/
theorem slots_of_load (h : load n = .ok l) : ∀ s ∈ l.tree.slots, s.type = .absent ∨
    s.kind = .letVar ∧ (s.type = .int ∨ s.type = .bool ∨ s.type = .unit) := by
  rw [Expr.forall_mem_slots]
  rintro ⟨q, e⟩ he
  obtain ⟨m, -, hread⟩ := exists_part_of_load h (Expr.at?_of_mem_places he)
  exact hread.slots

theorem uniform_of_load (h : load n = .ok l) :
    l.tree.Everywhere fun e => Uniform e.ownBindings := by
  rintro ⟨q, e⟩ he
  obtain ⟨m, -, hread⟩ := exists_part_of_load h (Expr.at?_of_mem_places he)
  exact hread.uniform

theorem reserve_of_load (h : load n = .ok l) : reserve l.tree.bindings = [] := by
  refine List.flatMap_eq_nil_iff.2 fun b hb => ?_
  obtain ⟨s, hs, -, hslot⟩ := Expr.exists_slot hb
  rw [← hslot]
  rcases slots_of_load h s hs with ht | ⟨-, ht | ht | ht⟩ <;> rw [ht] <;> rfl

end Loaded

/-- The first ids of a supply that starts at zero. -/
theorem Supply.count_freshList {k : Nat} (hroom : ∀ v ∈ (freshList ⟨0⟩ k).1, v < last) (v : Int) :
    (freshList ⟨0⟩ k).1.count v = if 0 ≤ v ∧ v < (freshList ⟨0⟩ k).2.next then 1 else 0 := by
  rw [freshList_eq (by decide) hroom, (nodup_idsFrom 0 k).count]
  simp only [mem_idsFrom]

/-- The program is what has been loaded, with variables for the bindings that had no type. -/
structure Program.Supplies (l : Loaded) (p : Program) : Prop where
  fills : l.tree.Fills .supplied p.tree
  allots : Allots l.tree.bindings p.tree.bindings ⟨0⟩ p.supply

namespace Program

variable {n : Node} {l : Loaded} {p : Program}

theorem exists_supplies (h : ofNode n = .ok p) : ∃ l, load n = .ok l ∧ Supplies l p := by
  simp only [ofNode, checked_bind_eq_ok, checked_pure_eq_ok] at h
  obtain ⟨l, hl, rfl⟩ := h
  exact ⟨l, hl, l.tree.fillSlots_fills ⟨0⟩, Expr.fillSlots_allots (Loaded.uniform_of_load hl) ⟨0⟩⟩

namespace Supplies

theorem filled (hp : Supplies l p) {s : Slot} (hs : s ∈ p.tree.slots)
    (hkind : s.kind ≠ .application) : s.type ≠ .absent := by
  intro habs
  have hfilled := Expr.isAbsent_of_mem_slots hp.allots.filled hs hkind
  rw [habs] at hfilled
  cases hfilled

theorem applications (hp : Supplies l p) (hl : load n = .ok l) {s : Slot} (hs : s ∈ p.tree.slots)
    (hkind : s.kind = .application) : s.type = .absent := by
  obtain ⟨s₀, hs₀, hf⟩ := exists_of_forall₂ hp.fills.slots hs
  have hkind₀ : s₀.kind = .application := hf.kind.symm.trans hkind
  rcases hf.type with heq | ⟨hne, -⟩
  · rw [heq]
    rcases Loaded.slots_of_load hl s₀ hs₀ with habs | ⟨hlet, -⟩
    · exact habs
    · rw [hkind₀] at hlet
      cases hlet
  · exact absurd hkind₀ hne

theorem bindings (hp : Supplies l p) (hl : load n = .ok l) {s : Slot} (hs : s ∈ p.tree.slots)
    (hkind : s.kind ≠ .application) : (∃ v, s.type = .var v) ∨
      s.kind = .letVar ∧ (s.type = .int ∨ s.type = .bool ∨ s.type = .unit) := by
  obtain ⟨s₀, hs₀, hf⟩ := exists_of_forall₂ hp.fills.slots hs
  rcases hf.type with heq | ⟨-, -, hvar⟩
  · rw [heq, hf.kind]
    rcases Loaded.slots_of_load hl s₀ hs₀ with habs | hconst
    · exact absurd (heq.trans habs) (hp.filled hs hkind)
    · exact .inr hconst
  · exact .inl hvar

/-- The slot of a plain binding goes back to what was read for it. -/
theorem declared (hp : Supplies l p) (hl : load n = .ok l) (hwhole : p.tree.Whole) {q : Expr.Path}
    {b : Binding} {v e : Expr} (hlet : p.tree.at? q = some (.letIn b v e)) :
    ∃ m, n.part? q = some m ∧ ((∃ t, m.typeKey? = some t ∧ typeName t = .ok b.slot) ∨
      m.typeKey? = none ∧ ∃ v, b.slot = .var v) := by
  have hplace := hwhole.mem_places hlet
  have hne : b.slot ≠ .absent :=
    hp.filled (List.mem_flatMap.2 ⟨_, hplace, List.mem_singleton.2 rfl⟩) nofun
  obtain ⟨⟨q₀, e₀⟩, he₀, hq, hf⟩ := exists_of_forall₂ hp.fills.places hplace
  obtain rfl : q = q₀ := hq
  obtain ⟨m, hm, hread⟩ := exists_part_of_load hl (Expr.at?_of_mem_places he₀)
  refine ⟨m, hm, ?_⟩
  cases hf with
  | letIn hb _ _ =>
    rcases hread with ⟨t, ht, hname⟩ | ⟨hnone, habs⟩
    · rcases hb.slot with heq | ⟨-, habs, -⟩
      · exact .inl ⟨t, ht, heq ▸ hname⟩
      · rw [habs] at hname
        cases proper_of_typeName hname
    · rcases hb.slot with heq | ⟨-, -, hvar⟩
      · exact absurd (heq.trans habs) hne
      · exact .inr ⟨hnone, hvar⟩

/-- The variables are the ids that the supply has handed out. -/
theorem exists_ids (hp : Supplies l p) (hl : load n = .ok l) :
    ∃ k, p.tree.slotVars.Perm (Supply.freshList ⟨0⟩ k).1 ∧
      p.supply = (Supply.freshList ⟨0⟩ k).2 := by
  obtain ⟨k, hids, hsupply⟩ := hp.allots.ids
  rw [Loaded.reserve_of_load hl, List.nil_append,
    ← Expr.slotVars_eq_reserve fun s hs => hp.applications hl hs] at hids
  exact ⟨k, hids, hsupply⟩

end Supplies

/-- **A program uses the ids below its supply, each one in one slot.** In a tree that is loaded from
any node of a document, aliases included, no node is missing or foreign, the slots of applications
are empty, and the slots of bindings hold one variable each; a plain binding holds a constant
instead exactly if the document has a type under the key for it. The variables are the ids from zero
up to the next one of the supply, and each of them stands in a single slot. -/
theorem linear_of_ofNode (h : ofNode n = .ok p) (hroom : ∀ v ∈ p.tree.slotVars, v < Supply.last) :
    p.Linear n ∧ ∀ text, Yaml.read text = .document n → parse text = .ok p := by
  obtain ⟨l, hl, hp⟩ := exists_supplies h
  have hwhole := (sound_of_ofNode h).whole
  obtain ⟨k, hids, hsupply⟩ := hp.exists_ids hl
  have hroom' : ∀ v ∈ (Supply.freshList ⟨0⟩ k).1, v < Supply.last :=
    fun v hv => hroom v (hids.mem_iff.2 hv)
  refine ⟨⟨hwhole, fun s hs => hp.applications hl hs, fun s hs => hp.bindings hl hs,
    fun q b v e => hp.declared hl hwhole, fun v => ?_, ?_⟩, fun text htext => ?_⟩
  · rw [hids.count_eq, hsupply]
    exact Supply.count_freshList hroom' v
  · rw [hids.length_eq, Supply.length_freshList, hsupply,
      Supply.freshList_eq (by decide) hroom']
    exact Int.zero_add _
  · rw [parse_of_read htext, h]
    rfl

/-- A form with the given name and fields. -/
def formNode (name : String) (fields : List (String × Node)) : Node :=
  .mapping {} [(.scalar {} "!!str" name,
    .mapping {} (fields.map fun f => (.scalar {} "!!str" f.1, f.2)))]

/-- The identity function. -/
def sharedPart : Node :=
  formNode "letrec" [("name", .scalar {} "!!str" "f"),
    ("args", .sequence {} [.scalar {} "!!str" "x"]), ("body", .scalar {} "!!str" "x"),
    ("in", .scalar {} "!!str" "f")]

/-- A part that occurs again through an alias, and a binding with a type around one without. -/
def sharedParts : Node :=
  .sequence {} [sharedPart, .alias {} "part" sharedPart,
    formNode "let" [("name", .scalar {} "!!str" "y"), ("type", .scalar {} "!!str" "bool"),
      ("value", formNode "let" [("name", .scalar {} "!!str" "z"),
        ("value", .scalar {} "!!bool" "true"), ("body", .scalar {} "!!str" "z")]),
      ("body", .scalar {} "!!str" "y")]]

/-- The function and its argument have variables of their own each time they are read. -/
theorem linear_of_ofNode_sharedParts :
    ∃ p, ofNode sharedParts = .ok p ∧ p.tree.slotVars = [0, 1, 2, 3, 4] ∧ p.Linear sharedParts := by
  have hvars : (ofNode sharedParts).map (·.tree.slotVars) = .ok [0, 1, 2, 3, 4] := by
    cbv
  cases h : ofNode sharedParts with
  | error e =>
    rw [h] at hvars
    cases hvars
  | ok p =>
    rw [h] at hvars
    have hids : p.tree.slotVars = [0, 1, 2, 3, 4] := Except.ok.inj hvars
    exact ⟨p, rfl, hids, (linear_of_ofNode h (by rw [hids]; decide)).1⟩

end Program

end LetPoly
