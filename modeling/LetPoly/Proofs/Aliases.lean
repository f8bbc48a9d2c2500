import LetPoly.Proofs.Allotment
import LetPoly.Proofs.Likeness

/-!
# Aliases

Where an expression is expected, an alias is read as the node that it stands for. Where a name, a
list, the fields of a form or a type is expected, an alias is a node of the wrong kind, and the
document is refused. So in a document that is a program every alias may give way to a copy of its
target, and the tree and its variables stay the same.

Keys are the exception. A key is known by its text alone, and the text of an alias is the name of
its target, not the text of its target. So an alias may open a form, or be a field of one, that its
target has nothing to do with. Only if each alias that is used as a key goes by the text of its
target does the copy hold the same program.

## Main definitions

* `Yaml.Node.resolve`: a copy of its target in place of every alias.
* `Yaml.Node.AliasFree`: no alias is left.
* `Yaml.Node.KeysAgree`: every key has the text of what it stands for.

## Main results

* `Yaml.Node.aliasFree_resolve`: the copy is without aliases.
* `likeness_resolve`: where keys agree, the copy is read like the document.
* `Program.ofNode_resolve`: where keys agree, aliases are transparent.
* `Program.ofNode_resolve_misnamed`: a key that is read as something else than its target.
-/

namespace LetPoly

open Text (Position)
open Yaml (Node)

/-! ### Copies -/

namespace Yaml.Node

mutual

/-- The document with a copy of its target in place of every alias. -/
def resolve : Node → Node
  | .scalar q tag text => .scalar q tag text
  | .sequence q items => .sequence q (resolveItems items)
  | .mapping q entries => .mapping q (resolveEntries entries)
  | .alias _ _ target => target.resolve

/-- The same for the items of a sequence. -/
def resolveItems : List Node → List Node
  | [] => []
  | n :: ns => n.resolve :: resolveItems ns

/-- The same for the entries of a mapping, keys and values. -/
def resolveEntries : List (Node × Node) → List (Node × Node)
  | [] => []
  | (k, v) :: entries => (k.resolve, v.resolve) :: resolveEntries entries

end

theorem resolveItems_eq_map (ns : List Node) : resolveItems ns = ns.map resolve := by
  induction ns with
  | nil => rfl
  | cons n ns ih => rw [resolveItems, ih, List.map_cons]

theorem resolveEntries_eq_map (es : List (Node × Node)) :
    resolveEntries es = es.map fun e => (e.1.resolve, e.2.resolve) := by
  induction es with
  | nil => rfl
  | cons e es ih => rw [resolveEntries, ih, List.map_cons]

/-- Induction over nodes, with one hypothesis for each item and for each key and value. -/
@[elab_as_elim] theorem ind {motive : Node → Prop}
    (scalar : ∀ q tag text, motive (.scalar q tag text))
    (sequence : ∀ q items, (∀ n ∈ items, motive n) → motive (.sequence q items))
    (mapping : ∀ q es, (∀ e ∈ es, motive e.1 ∧ motive e.2) → motive (.mapping q es))
    (aliased : ∀ q name target, motive target → motive (.alias q name target)) (n : Node) :
    motive n :=
  @Node.rec motive (fun ns => ∀ n ∈ ns, motive n) (fun es => ∀ e ∈ es, motive e.1 ∧ motive e.2)
    (fun e => motive e.1 ∧ motive e.2) scalar sequence mapping aliased
    (fun _ h => absurd h List.not_mem_nil) (fun _ _ hn hns => List.forall_mem_cons.2 ⟨hn, hns⟩)
    (fun _ h => absurd h List.not_mem_nil) (fun _ _ he hes => List.forall_mem_cons.2 ⟨he, hes⟩)
    (fun _ _ hk hv => ⟨hk, hv⟩) n

/-- There is no alias in the document. -/
inductive AliasFree : Node → Prop where
  | scalar (q : Position) (tag text : String) : AliasFree (.scalar q tag text)
  | sequence (q : Position) {items : List Node} (h : ∀ n ∈ items, AliasFree n) :
    AliasFree (.sequence q items)
  | mapping (q : Position) {es : List (Node × Node)} (hkeys : ∀ e ∈ es, AliasFree e.1)
    (hvalues : ∀ e ∈ es, AliasFree e.2) : AliasFree (.mapping q es)

/-- The copy is without aliases. -/
theorem aliasFree_resolve (n : Node) : n.resolve.AliasFree := by
  induction n using Node.ind with
  | scalar q tag text => exact .scalar q tag text
  | sequence q items ih =>
    rw [resolve, resolveItems_eq_map]
    exact .sequence q (List.forall_mem_map.2 ih)
  | mapping q es ih =>
    rw [resolve, resolveEntries_eq_map]
    exact .mapping q (List.forall_mem_map.2 fun e he => (ih e he).1)
      (List.forall_mem_map.2 fun e he => (ih e he).2)
  | aliased q name target ih => exact ih

mutual

/-- Does every key have the text of what it stands for? -/
def keysAgree : Node → Bool
  | .scalar _ _ _ => true
  | .sequence _ items => itemsAgree items
  | .mapping _ entries => entriesAgree entries
  | .alias _ _ target => target.keysAgree

/-- The same for the items of a sequence. -/
def itemsAgree : List Node → Bool
  | [] => true
  | n :: ns => n.keysAgree && itemsAgree ns

/-- The same for the entries of a mapping. -/
def entriesAgree : List (Node × Node) → Bool
  | [] => true
  | (k, v) :: entries => k.keyText == k.resolve.keyText && v.keysAgree && entriesAgree entries

end

/-- Every key has the text of what it stands for: an alias that is used as a key goes by the text
of its target. -/
def KeysAgree (n : Node) : Prop :=
  n.keysAgree = true

instance (n : Node) : Decidable n.KeysAgree :=
  inferInstanceAs (Decidable (n.keysAgree = true))

theorem keysAgree_sequence {q : Position} {items : List Node} :
    (sequence q items).KeysAgree ↔ ∀ n ∈ items, n.KeysAgree := by
  rw [KeysAgree, keysAgree]
  induction items with
  | nil => simp [itemsAgree]
  | cons n ns ih => rw [itemsAgree, Bool.and_eq_true, ih, List.forall_mem_cons, KeysAgree]

theorem keysAgree_mapping {q : Position} {es : List (Node × Node)} :
    (mapping q es).KeysAgree ↔
      ∀ e ∈ es, e.1.keyText = e.1.resolve.keyText ∧ e.2.KeysAgree := by
  rw [KeysAgree, keysAgree]
  induction es with
  | nil => simp [entriesAgree]
  | cons e es ih =>
    rw [entriesAgree, Bool.and_eq_true, Bool.and_eq_true, ih, List.forall_mem_cons, beq_iff_eq,
      KeysAgree]

/-- The second node is the copy of the first one, whose keys agree with what they stand for. -/
def Copies (n m : Node) : Prop :=
  n.KeysAgree ∧ m = n.resolve

end Yaml.Node

open Yaml.Node (Likeness Copies KeysAgree AliasFree)

/-- **Where keys agree, the copy is read like the document.** A form may have moved to where its key
was written first. -/
theorem likeness_resolve : Likeness (fun _ _ => True) Copies where
  refl _ := trivial
  scalar h := h.2
  sequence {q items m} h := by
    obtain ⟨hagree, rfl⟩ := h
    rw [Node.keysAgree_sequence] at hagree
    refine ⟨items.map Node.resolve, congrArg _ (Node.resolveItems_eq_map items), ?_⟩
    exact List.forall₂_map_right_iff.2 (List.forall₂_same.2 fun n hn => ⟨hagree n hn, rfl⟩)
  mapping {q es m} h := by
    obtain ⟨hagree, rfl⟩ := h
    rw [Node.keysAgree_mapping] at hagree
    refine ⟨es, es.map fun e => (e.1.resolve, e.2.resolve),
      congrArg _ (Node.resolveEntries_eq_map es), .refl es, ?_⟩
    exact List.forall₂_map_right_iff.2 (List.forall₂_same.2 fun e he =>
      ⟨(hagree e he).1, trivial, (hagree e he).2, rfl⟩)
  aliased {q name n m} h := by
    obtain ⟨hagree, rfl⟩ := h
    exact ⟨n.resolve, rfl, hagree, rfl⟩

/-! ### Programs -/

namespace Program

/-- **Where keys agree, aliases are transparent.** If a document is a program, and each alias that
it uses as a key goes by the text of its target, then the document with a copy of its target in
place of every alias is a program too, with the same tree, the same variables in its slots and the
same supply. -/
theorem ofNode_resolve {n : Node} (hkeys : n.KeysAgree) {p : Program} (hp : ofNode n = .ok p) :
    n.resolve.AliasFree ∧
      ∃ p', ofNode n.resolve = .ok p' ∧ p'.tree = p.tree ∧ p'.supply = p.supply := by
  obtain ⟨p', hp', htree, hsupply, -⟩ := exists_of_ofNode likeness_resolve ⟨hkeys, rfl⟩ hp
  exact ⟨n.aliasFree_resolve, p', hp', htree, hsupply⟩

theorem exists_of_map_eq_ok {α β : Type} {x : Checked α} {f : α → β} {b : β}
    (h : x.map f = .ok b) : ∃ a, x = .ok a ∧ f a = b := by
  cases x with
  | error e => cases h
  | ok a => exact ⟨a, rfl, Except.ok.inj h⟩

/-- A form, and another one whose key is an alias of the given name for the key of the first. -/
def keyTwice (name : String) : Node :=
  .sequence ⟨1, 1⟩ [
    .mapping ⟨1, 2⟩ [(.scalar ⟨1, 3⟩ "!!str" "not", .scalar ⟨1, 14⟩ "!!bool" "true")],
    .mapping ⟨1, 21⟩ [(.alias ⟨1, 22⟩ name (.scalar ⟨1, 3⟩ "!!str" "not"),
      .scalar ⟨1, 29⟩ "!!int" "1")]]

/-- A function that is read twice, and a key that is used again by the name of its text. -/
def wellNamed : Node :=
  .sequence ⟨1, 1⟩ [sharedPart, .alias ⟨1, 1⟩ "part" sharedPart, keyTwice "not"]

theorem ofNode_resolve_wellNamed : wellNamed.KeysAgree ∧ ∃ p p',
    ofNode wellNamed = .ok p ∧ ofNode wellNamed.resolve = .ok p' ∧ p'.tree = p.tree ∧
      p'.supply = p.supply ∧ p.tree.slotVars = [0, 1, 2, 3] := by
  have hkeys : wellNamed.KeysAgree := by decide
  have hvars : (ofNode wellNamed).map (·.tree.slotVars) = .ok [0, 1, 2, 3] := by
    cbv
  obtain ⟨p, hp, hids⟩ := exists_of_map_eq_ok hvars
  obtain ⟨-, p', hp', htree, hsupply⟩ := ofNode_resolve hkeys hp
  exact ⟨hkeys, p, p', hp, hp', htree, hsupply, hids⟩

/-- **A key that is read as something else than its target.** In the document
`[{&neg not : true}, {*neg : 1}]` both forms have the key `not`, and the second one is read as the
form that the alias has its name from. -/
theorem ofNode_resolve_misnamed : ∃ p p',
    ofNode (keyTwice "neg") = .ok p ∧ ofNode (keyTwice "neg").resolve = .ok p' ∧
      p.tree = .tuple [.not (.bool true), .neg (.int 1)] ∧
      p'.tree = .tuple [.not (.bool true), .not (.int 1)] := by
  have hread : (ofNode (keyTwice "neg")).map (·.tree) =
      .ok (.tuple [.not (.bool true), .neg (.int 1)]) := by
    cbv
  have hcopy : (ofNode (keyTwice "neg").resolve).map (·.tree) =
      .ok (.tuple [.not (.bool true), .not (.int 1)]) := by
    cbv
  obtain ⟨p, hp, htree⟩ := exists_of_map_eq_ok hread
  obtain ⟨p', hp', htree'⟩ := exists_of_map_eq_ok hcopy
  exact ⟨p, p', hp, hp', htree, htree'⟩

end Program

end LetPoly
