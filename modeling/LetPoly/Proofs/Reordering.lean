import LetPoly.Proofs.Likeness
import Mathlib.Logic.Relation

/-!
# The order of keys

A form finds its fields by their keys: a key must be one of the form's own and occur once, and the
value under it is the same in whatever order the entries stand. So a document whose mappings have
their entries in another order, at any depth, is the same program: the tree, the variables in its
slots, the supply and the position of every node are those of the other document.

## Main definitions

* `Yaml.Node.Reorders`: one mapping of the document has its entries in another order.

## Main results

* `likeness_near`: reordered nodes are read alike.
* `Program.ofNode_reordered`: the order of keys never matters.
-/

namespace LetPoly

open Text (Position)
open Yaml (Node)
open Relation (ReflGen ReflTransGen)

/-! ### Reordered documents -/

namespace Yaml.Node

/-- One mapping of the document, at any depth, has its entries in another order. -/
inductive Reorders : Node → Node → Prop where
  | entries (q : Position) {es fs : List (Node × Node)} (h : es.Perm fs) :
    Reorders (.mapping q es) (.mapping q fs)
  | key (q : Position) (before after : List (Node × Node)) (v : Node) {k l : Node}
    (h : Reorders k l) :
    Reorders (.mapping q (before ++ (k, v) :: after)) (.mapping q (before ++ (l, v) :: after))
  | value (q : Position) (before after : List (Node × Node)) (k : Node) {v w : Node}
    (h : Reorders v w) :
    Reorders (.mapping q (before ++ (k, v) :: after)) (.mapping q (before ++ (k, w) :: after))
  | item (q : Position) (before after : List Node) {n m : Node} (h : Reorders n m) :
    Reorders (.sequence q (before ++ n :: after)) (.sequence q (before ++ m :: after))
  | target (q : Position) (name : String) {n m : Node} (h : Reorders n m) :
    Reorders (.alias q name n) (.alias q name m)

namespace Reorders

variable {n m : Node}

theorem symm (h : Reorders n m) : Reorders m n := by
  induction h with
  | entries q h => exact .entries q h.symm
  | key q before after v _ ih => exact .key q before after v ih
  | value q before after k _ ih => exact .value q before after k ih
  | item q before after _ ih => exact .item q before after ih
  | target q name _ ih => exact .target q name ih

theorem position (h : Reorders n m) : n.position = m.position := by
  cases h <;> rfl

theorem keyText (h : Reorders n m) : n.keyText = m.keyText := by
  cases h <;> rfl

end Reorders

/-- The same node, or one whose mappings are reordered once. -/
abbrev Near : Node → Node → Prop := ReflGen Reorders

/-- Keys and values that are near to each other. -/
def NearEntry (e f : Node × Node) : Prop :=
  Near e.1 f.1 ∧ Near e.2 f.2

namespace Near

variable {q : Position} {n m : Node}

theorem position (h : Near n m) : n.position = m.position := by
  cases h with
  | refl => rfl
  | single h => exact h.position

theorem keyText (h : Near n m) : n.keyText = m.keyText := by
  cases h with
  | refl => rfl
  | single h => exact h.keyText

/-- Lists that differ in one place, by related elements, are related element by element. -/
theorem forall₂_of_append {α : Type} {R : α → α → Prop} (hrefl : ∀ x, R x x) (before after : List α)
    {x y : α} (h : R x y) : List.Forall₂ R (before ++ x :: after) (before ++ y :: after) :=
  List.rel_append (List.forall₂_same.2 fun z _ => hrefl z)
    (.cons h (List.forall₂_same.2 fun z _ => hrefl z))

theorem nearEntry_refl (e : Node × Node) : NearEntry e e :=
  ⟨.refl, .refl⟩

theorem scalar {tag text : String} (h : Near (.scalar q tag text) m) : m = .scalar q tag text := by
  cases h with
  | refl => rfl
  | single h => cases h

theorem sequence {items : List Node} (h : Near (.sequence q items) m) :
    ∃ items', m = .sequence q items' ∧ List.Forall₂ Near items items' := by
  cases h with
  | refl => exact ⟨items, rfl, List.forall₂_same.2 fun _ _ => .refl⟩
  | single h =>
    cases h with
    | item _ before after h =>
      exact ⟨_, rfl, forall₂_of_append (fun _ => .refl) before after (.single h)⟩

/-- The entries of a mapping stand in another order, or keep their order and change inside. -/
theorem mapping {es : List (Node × Node)} (h : Near (.mapping q es) m) :
    ∃ fs, m = .mapping q fs ∧ (es.Perm fs ∨ List.Forall₂ NearEntry es fs) := by
  cases h with
  | refl => exact ⟨es, rfl, .inl (.refl es)⟩
  | single h =>
    cases h with
    | entries _ h => exact ⟨_, rfl, .inl h⟩
    | key _ before after v h =>
      exact ⟨_, rfl, .inr (forall₂_of_append nearEntry_refl before after ⟨.single h, .refl⟩)⟩
    | value _ before after k h =>
      exact ⟨_, rfl, .inr (forall₂_of_append nearEntry_refl before after ⟨.refl, .single h⟩)⟩

theorem aliased {name : String} (h : Near (.alias q name n) m) :
    ∃ m', m = .alias q name m' ∧ Near n m' := by
  cases h with
  | refl => exact ⟨n, rfl, .refl⟩
  | single h =>
    cases h with
    | target _ _ h => exact ⟨_, rfl, .single h⟩

end Near

end Yaml.Node

open Yaml.Node (Likeness Reorders Near)

/-- Reordering a mapping changes nothing that the reading of nodes looks at, positions included. -/
theorem likeness_near : Likeness (· = ·) Near where
  refl _ := rfl
  scalar h := h.scalar
  sequence h := h.sequence
  mapping {q es m} h := by
    obtain ⟨fs, rfl, hperm | hnear⟩ := h.mapping
    · exact ⟨fs, fs, rfl, hperm, List.forall₂_same.2 fun e _ => ⟨rfl, rfl, .refl⟩⟩
    · exact ⟨es, fs, rfl, .refl es, hnear.imp fun _ _ he => ⟨he.1.keyText, he.1.position, he.2⟩⟩
  aliased h := by
    obtain ⟨m', rfl, hm'⟩ := h.aliased
    exact ⟨m', rfl, hm'⟩

/-! ### Programs -/

namespace Program

/-- Reordering one mapping leaves the program as it is. -/
theorem ofNode_eq_ok_of_reorders {n m : Node} (h : Reorders n m) {p : Program}
    (hp : ofNode n = .ok p) : ofNode m = .ok p := by
  obtain ⟨p', hp', htree, hsupply, hpositions⟩ := exists_of_ofNode likeness_near (.single h) hp
  rw [List.forall₂_eq_eq_eq] at hpositions
  cases p'
  cases htree
  cases hsupply
  cases hpositions
  exact hp'

/-- **The order of keys never matters.** When the entries of mappings are put in another order, at
any depth and any number of times, the document holds a program if it held one before, and the tree,
the variables in its slots, the supply and the positions of the nodes are the same. -/
theorem ofNode_reordered {n m : Node} (h : ReflTransGen Reorders n m) (p : Program) :
    ofNode n = .ok p ↔ ofNode m = .ok p := by
  induction h with
  | refl => rfl
  | tail _ hstep ih =>
    exact ih.trans ⟨ofNode_eq_ok_of_reorders hstep, ofNode_eq_ok_of_reorders hstep.symm⟩

/-- The fields of a call. -/
def callFields : List (Node × Node) :=
  [(.scalar ⟨4, 7⟩ "!!str" "func", .scalar ⟨4, 13⟩ "!!str" "f"),
    (.scalar ⟨5, 7⟩ "!!str" "args", .sequence ⟨5, 13⟩ [.scalar ⟨5, 14⟩ "!!int" "1"])]

/-- The fields of a binding around a call with the given fields. -/
def bindingFields (call : List (Node × Node)) : List (Node × Node) :=
  [(.scalar ⟨2, 3⟩ "!!str" "name", .scalar ⟨2, 9⟩ "!!str" "y"),
    (.scalar ⟨3, 3⟩ "!!str" "value",
      .mapping ⟨3, 10⟩ [(.scalar ⟨3, 10⟩ "!!str" "app", .mapping ⟨4, 7⟩ call)]),
    (.scalar ⟨6, 3⟩ "!!str" "body", .scalar ⟨6, 9⟩ "!!str" "y")]

/-- A binding with the given fields. -/
def bindingNode (fields : List (Node × Node)) : Node :=
  .mapping ⟨1, 1⟩ [(.scalar ⟨1, 1⟩ "!!str" "let", .mapping ⟨2, 3⟩ fields)]

/-- Two mappings, one inside of the other, are read backwards. -/
theorem ofNode_reordered_backwards : ∃ p,
    ofNode (bindingNode (bindingFields callFields)) = .ok p ∧
      ofNode (bindingNode (bindingFields callFields.reverse).reverse) = .ok p ∧
      p.tree.slotVars = [0] ∧ p.supply = ⟨1⟩ ∧
      p.positions = [⟨1, 1⟩, ⟨3, 10⟩, ⟨4, 13⟩, ⟨5, 14⟩, ⟨6, 9⟩] := by
  have hinner : Reorders (bindingNode (bindingFields callFields))
      (bindingNode (bindingFields callFields.reverse)) :=
    .value _ [] [] _ (.value _ [_] [_] _ (.value _ [] [] _
      (.entries _ (List.reverse_perm _).symm)))
  have houter : Reorders (bindingNode (bindingFields callFields.reverse))
      (bindingNode (bindingFields callFields.reverse).reverse) :=
    .value _ [] [] _ (.entries _ (List.reverse_perm _).symm)
  have hread : (ofNode (bindingNode (bindingFields callFields))).map
      (fun p => (p.tree.slotVars, p.supply, p.positions)) =
        .ok ([0], ⟨1⟩, [⟨1, 1⟩, ⟨3, 10⟩, ⟨4, 13⟩, ⟨5, 14⟩, ⟨6, 9⟩]) := by
    cbv
  cases h : ofNode (bindingNode (bindingFields callFields)) with
  | error e =>
    rw [h] at hread
    cases hread
  | ok p =>
    rw [h] at hread
    have hsame := (ofNode_reordered ((ReflTransGen.single hinner).tail houter) p).1 h
    simp only [Except.map, Except.ok.injEq, Prod.mk.injEq] at hread
    exact ⟨p, rfl, hsame, hread⟩

end Program

end LetPoly
