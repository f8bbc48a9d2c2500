import LetPoly.Proofs.Loading

/-!
# Where the nodes of a program were read

The tree of a program has the shape of the document: the way from the root of the tree to a node
leads, part by part, to the node of the document that it was read from. An alias stands for its
target there, so that one node of the document may be read for several places. What stands in the
slots of a node when it is read depends on that node of the document alone: nothing, or the type
that a plain binding has under the key for it.

## Main definitions

* `Yaml.Node.part?`: the node of the document that is read for a place of the tree.
* `Yaml.Node.typeKey?`: what a plain binding has under the key for its type.
* `Expr.ReadAs`: what stands in the slots of a node when it is read.

## Main results

* `readAs_of_outline`: the slots of a node are empty, or hold the type under the key.
* `exists_part_of_load`: the same for every node of a loaded tree.
-/

namespace LetPoly

open Text (Position)
open Yaml (Node)

/-! ### Nodes of the document -/

namespace Yaml.Node

/-- What an alias stands for in the end, or the node itself. -/
def target : Node → Node
  | .alias _ _ target => target.target
  | n => n

/-- The node that is read for the place at the end of a path. -/
def part? : Expr.Path → Node → Option Node
  | [], n => some n
  | i :: p, n =>
    match outline n with
    | .ok o => o.parts[i]?.bind (part? p)
    | .error _ => none

/-- What stands under the key for the type in a form with the given name. Only plain bindings have
such a key. -/
def typeField? (name : String) (value : Node) : Option Node :=
  match name, value with
  | "let", .mapping _ entries => (entries.map fun e => (e.1.keyText, e.2)).lookup "type"
  | _, _ => none

/-- What a plain binding has under the key for its type. -/
def typeKey? (n : Node) : Option Node :=
  match n.target with
  | .mapping _ [(key, value)] => typeField? key.keyText value
  | _ => none

end Yaml.Node

/-! ### Slots when a node is read -/

/-- What stands in the slots of a node when it is read: the type of a plain binding if there is
something under the key for it, and nothing else. -/
def Expr.ReadAs (type? : Option Node) : Expr → Prop
  | .letIn b _ _ =>
    (∃ t, type? = some t ∧ typeName t = .ok b.slot) ∨ type? = none ∧ b.slot = .absent
  | e => ∀ s ∈ e.ownSlots, s.type = .absent

/-- The same for the bindings of a head. -/
def Head.ReadAs (type? : Option Node) : Head → Prop
  | .leaf e => e.ReadAs type?
  | .letIn b => (∃ t, type? = some t ∧ typeName t = .ok b.slot) ∨ type? = none ∧ b.slot = .absent
  | .letRec fn args => ∀ b ∈ fn :: args, b.slot = .absent
  | .letTuple vars => ∀ b ∈ vars, b.slot = .absent
  | _ => True

theorem Head.ReadAs.assemble {type? : Option Node} {head : Head} (h : head.ReadAs type?)
    {es : List Expr} (htakes : head.Takes es.length) : (head.assemble es).ReadAs type? := by
  cases head with
  | leaf e => exact h
  | tuple => exact fun _ hs => absurd hs List.not_mem_nil
  | not | neg =>
    obtain ⟨e, rfl⟩ := List.length_eq_one_iff.1 htakes
    exact fun _ hs => absurd hs List.not_mem_nil
  | arith | eq | le =>
    obtain ⟨l, r, rfl⟩ := List.length_eq_two.1 htakes
    exact fun _ hs => absurd hs List.not_mem_nil
  | ite =>
    obtain ⟨c, e₁, e₂, rfl⟩ := List.length_eq_three.1 htakes
    exact fun _ hs => absurd hs List.not_mem_nil
  | letIn b =>
    obtain ⟨v, e, rfl⟩ := List.length_eq_two.1 htakes.1
    exact h
  | letRec fn args =>
    obtain ⟨body, rest, rfl⟩ := List.length_eq_two.1 htakes.1
    rw [ReadAs, List.forall_mem_cons] at h
    exact List.forall_mem_cons.2 ⟨h.1, List.forall_mem_map.2 h.2⟩
  | app =>
    obtain ⟨fn, args, rfl⟩ := List.exists_cons_of_length_pos htakes
    exact List.forall_mem_singleton.2 rfl
  | letTuple vars =>
    obtain ⟨v, e, rfl⟩ := List.length_eq_two.1 htakes.1
    exact List.forall_mem_map.2 h

section Forms

variable {q : Position} {n : Node} {o : Outline}

/-- The fields are the entries of the mapping, in order. -/
theorem eq_of_addFields {allowed : List String} {entries : List (Node × Node)}
    {seen out : List (String × Node)} (h : addFields allowed entries seen = .ok out) :
    out = seen ++ entries.map fun e => (e.1.keyText, e.2) := by
  induction entries generalizing seen with
  | nil =>
    rw [List.map_nil, List.append_nil]
    exact (Except.ok.inj h).symm
  | cons e entries ih =>
    obtain ⟨k, v⟩ := e
    rw [addFields] at h
    split at h
    · exact absurd h reject_ne_ok
    · split at h
      · exact absurd h reject_ne_ok
      · rw [ih h, List.append_assoc, List.map_cons, List.singleton_append]

theorem get?_type_of_fields {required optional : List String} {f : Fields}
    (h : fields n required optional = .ok f) : f.get? "type" = n.typeField? "let" := by
  unfold fields at h
  split at h
  · obtain ⟨out, hout, h⟩ := checked_bind_eq_ok.1 h
    rw [checked_pure_eq_ok] at h
    subst h
    rw [Fields.get?, eq_of_addFields hout]
    rfl
  · exact absurd h reject_ne_ok

theorem readAs_of_letOutline (h : letOutline q n = .ok o) (hd : o.deferred = none) :
    o.head.ReadAs (n.typeField? "let") := by
  simp only [letOutline, checked_bind_eq_ok] at h
  obtain ⟨f, hf, _, -, _, -, _, -, _, -, h⟩ := h
  rw [get?_type_of_fields hf] at h
  split at h <;> simp only [checked_pure_eq_ok] at h <;> subst h
  · rename_i hnone
    exact .inr ⟨Option.map_eq_none_iff.1 hnone, rfl⟩
  · rename_i hsome
    obtain ⟨t, ht, hname⟩ := Option.map_eq_some_iff.1 hsome
    exact .inl ⟨t, ht, hname⟩
  · cases hd

theorem readAs_of_letRecOutline {type? : Option Node} (h : letRecOutline q n = .ok o) :
    o.head.ReadAs type? := by
  simp only [letRecOutline, checked_bind_eq_ok, checked_pure_eq_ok] at h
  obtain ⟨_, -, _, -, _, -, _, -, _, -, _, -, args, -, rfl⟩ := h
  exact List.forall_mem_cons.2 ⟨rfl, List.forall_mem_map.2 fun _ _ => rfl⟩

theorem readAs_of_letTupleOutline {type? : Option Node} (h : letTupleOutline q n = .ok o) :
    o.head.ReadAs type? := by
  simp only [letTupleOutline, checked_bind_eq_ok, checked_pure_eq_ok] at h
  obtain ⟨_, -, _, -, _, -, _, -, names, -, rfl⟩ := h
  exact List.forall_mem_map.2 fun _ _ => rfl

theorem readAs_of_iteOutline {type? : Option Node} (h : iteOutline q n = .ok o) :
    o.head.ReadAs type? := by
  simp only [iteOutline, checked_bind_eq_ok, checked_pure_eq_ok] at h
  obtain ⟨_, -, _, -, _, -, _, -, rfl⟩ := h
  trivial

theorem readAs_of_appOutline {type? : Option Node} (h : appOutline q n = .ok o) :
    o.head.ReadAs type? := by
  simp only [appOutline, checked_bind_eq_ok] at h
  obtain ⟨_, -, _, -, h⟩ := h
  split at h <;> simp only [checked_pure_eq_ok] at h <;> subst h <;> trivial

theorem Head.readAs_operator {type? : Option Node} {name : String} {head : Head}
    (h : operator? name = some head) : head.ReadAs type? := by
  unfold operator? at h
  split at h <;> cases h <;> trivial

theorem readAs_of_form {name : String} (h : form q name n = .ok o) (hd : o.deferred = none) :
    o.head.ReadAs (n.typeField? name) := by
  unfold form at h
  split at h
  · rename_i hop
    obtain ⟨items, -, h⟩ := checked_bind_eq_ok.1 h
    rw [checked_pure_eq_ok] at h
    subst h
    exact Head.readAs_operator hop
  · split at h
    · obtain ⟨x, -, h⟩ := checked_bind_eq_ok.1 h
      rw [checked_pure_eq_ok] at h
      subst h
      exact fun _ hs => absurd hs List.not_mem_nil
    · obtain rfl := Except.ok.inj h
      trivial
    · obtain rfl := Except.ok.inj h
      trivial
    · obtain ⟨items, -, h⟩ := checked_bind_eq_ok.1 h
      rw [checked_pure_eq_ok] at h
      subst h
      trivial
    · exact readAs_of_iteOutline h
    · exact readAs_of_letOutline h hd
    · exact readAs_of_letRecOutline h
    · exact readAs_of_appOutline h
    · exact readAs_of_letTupleOutline h
    · exact absurd h reject_ne_ok

/-- The slots of a node are empty when it is read, but for the type that a plain binding has under
the key for it. -/
theorem readAs_of_outline (h : outline n = .ok o) (hd : o.deferred = none) :
    o.head.ReadAs n.typeKey? := by
  fun_induction outline n with
  | case1 _ _ target ih => exact ih h
  | case2 q tag text =>
    obtain ⟨e, he, h⟩ := checked_bind_eq_ok.1 h
    rw [checked_pure_eq_ok] at h
    subst h
    obtain ⟨n, rfl⟩ | ⟨b, rfl⟩ | rfl | ⟨x, rfl⟩ := cases_of_literal he <;>
      exact fun _ hs => absurd hs List.not_mem_nil
  | case3 q items =>
    obtain rfl := Except.ok.inj h
    trivial
  | case4 q key value => exact readAs_of_form h hd
  | case5 => exact absurd h reject_ne_ok

end Forms

/-! ### Loaded trees -/

/-- A node that can be loaded has an outline, and parts that can be loaded. -/
theorem exists_of_load {n : Node} {l : Loaded} (h : load n = .ok l) :
    ∃ o parts, outline n = .ok o ∧ o.deferred = none ∧
      List.Forall₂ (fun m part => load m = .ok part) o.parts parts ∧
      o.head.Takes (parts.map (·.tree)).length ∧
      l.tree = o.head.assemble (parts.map (·.tree)) := by
  rw [load_eq] at h
  obtain ⟨o, ho, h⟩ := checked_bind_eq_ok.1 h
  obtain ⟨parts, hparts, h⟩ := checked_bind_eq_ok.1 h
  have hrel := forall₂_of_mapM hparts
  unfold Outline.finish at h
  split at h
  · cases h
  · rename_i hd
    obtain rfl := Except.ok.inj h
    refine ⟨o, parts, ho, hd, hrel, ?_, rfl⟩
    rw [List.length_map, ← hrel.length_eq]
    exact takes_of_outline ho hd

/-- **Every node of a loaded tree was read from a node of the document** at the same place, and its
slots are empty, but for the type that a plain binding has under the key for it. -/
theorem exists_part_of_load {n : Node} {l : Loaded} (h : load n = .ok l) {q : Expr.Path} {e : Expr}
    (he : l.tree.at? q = some e) : ∃ m, n.part? q = some m ∧ e.ReadAs m.typeKey? := by
  induction q generalizing n l with
  | nil =>
    obtain rfl := Option.some.inj he
    obtain ⟨o, parts, ho, hd, -, htakes, htree⟩ := exists_of_load h
    refine ⟨n, rfl, ?_⟩
    rw [htree]
    exact (readAs_of_outline ho hd).assemble htakes
  | cons i q ih =>
    obtain ⟨o, parts, ho, -, hrel, htakes, htree⟩ := exists_of_load h
    obtain ⟨c, hc, he⟩ := Option.bind_eq_some_iff.1 he
    rw [htree, htakes.assembled.children, List.getElem?_map] at hc
    obtain ⟨part, hpart, rfl⟩ := Option.map_eq_some_iff.1 hc
    obtain ⟨hi, rfl⟩ := List.getElem?_eq_some_iff.1 hpart
    have hi' : i < o.parts.length := hrel.length_eq ▸ hi
    obtain ⟨m, hm, hread⟩ := ih (hrel.get hi' hi) he
    refine ⟨m, ?_, hread⟩
    rw [Yaml.Node.part?, ho]
    simp only [List.getElem?_eq_getElem hi', Option.bind_some]
    exact hm

end LetPoly
