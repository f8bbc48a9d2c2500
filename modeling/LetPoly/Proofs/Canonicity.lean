import LetPoly.VarSet
import Mathlib

/-!
# Sets of type variables are canonical

A set of type variables is made from a list of ids, or from two sets that have been made before.
The same steps can be taken with finite sets of integers, and these tell what the arrays stand for:
whatever the steps were, the array lists the members of the finite set from the smallest to the
largest. This is why the search by halving finds a member wherever it is, and why it is enough to
compare two sets position by position.

## Main definitions

* `VarSet.Step`, `VarSet.Operations`: one step, and what the steps mean for some kind of set.
* `VarSet.Operations.run`, `VarSet.Operations.last`: all sets that a sequence of steps makes, and
  the last one of them.
* `VarSet.arrays`, `VarSet.finsets`: the operations on arrays and those on finite sets.
* `VarSet.toFinset`: the finite set of the members.

## Main results

* `VarSet.ids_eq_sort`, `VarSet.size_eq_card`: how the array depends on the finite set.
* `VarSet.toFinset_result`, `VarSet.map_toFinset_run`: a step, and a sequence of steps, makes with
  arrays what it makes with finite sets.
* `VarSet.canonical_last`: what the search, the size and the comparison say after any steps.
-/

namespace LetPoly

namespace VarSet

/-! ### Steps -/

/-- A step makes a set from ids or from two of the sets made so far. Of these the most recent one
has the number zero, the one before it the number one, and so on. -/
inductive Step where
  | ofList (vs : List Int)
  | union (i j : Nat)
  | diff (i j : Nat)

/-- What the steps do to sets of some kind. -/
structure Operations (α : Type) where
  ofList : List Int → α
  union : α → α → α
  diff : α → α → α

namespace Operations

variable {α : Type} (o : Operations α)

/-- The set with a number. Where there is no such set, it is the one without members. -/
def pick (made : List α) (i : Nat) : α :=
  made.getD i (o.ofList [])

/-- The set that a step makes. -/
def result (made : List α) : Step → α
  | .ofList vs => o.ofList vs
  | .union i j => o.union (o.pick made i) (o.pick made j)
  | .diff i j => o.diff (o.pick made i) (o.pick made j)

/-- The sets that a sequence of steps makes, most recent first. -/
def run (steps : List Step) : List α :=
  steps.foldl (fun made step => o.result made step :: made) []

/-- The set that the last step makes. -/
def last (steps : List Step) : α :=
  o.pick (o.run steps) 0

theorem run_concat (steps : List Step) (step : Step) :
    o.run (steps ++ [step]) = o.result (o.run steps) step :: o.run steps := by
  rw [run, List.foldl_append]
  rfl

end Operations

/-- The operations on sets of type variables. -/
def arrays : Operations VarSet :=
  ⟨ofList, union, diff⟩

/-- The operations on finite sets of integers. -/
def finsets : Operations (Finset Int) :=
  ⟨List.toFinset, (· ∪ ·), (· \ ·)⟩

/-! ### The finite set of the members -/

/-- The members as a finite set. -/
def toFinset (s : VarSet) : Finset Int :=
  s.ids.toFinset

variable {s t : VarSet}

@[simp] theorem mem_toFinset {v : Int} : v ∈ s.toFinset ↔ v ∈ s :=
  List.mem_toFinset

@[simp] theorem toFinset_ofList (vs : List Int) : (ofList vs).toFinset = vs.toFinset := by
  ext v
  simp

@[simp] theorem toFinset_union (s t : VarSet) :
    (s.union t).toFinset = s.toFinset ∪ t.toFinset := by
  ext v
  simp

@[simp] theorem toFinset_diff (s t : VarSet) : (s.diff t).toFinset = s.toFinset \ t.toFinset := by
  ext v
  simp

theorem toFinset_inj : s.toFinset = t.toFinset ↔ s = t := by
  refine ⟨fun h => ext fun v => ?_, congrArg toFinset⟩
  rw [← mem_toFinset, h, mem_toFinset]

/-- The array lists the members of the finite set in order. -/
theorem ids_eq_sort (s : VarSet) : s.ids = s.toFinset.sort (· ≤ ·) :=
  ((List.toFinset_sort (· ≤ ·) s.nodup).2 (s.sorted.imp Int.le_of_lt)).symm

theorem size_eq_card (s : VarSet) : s.size = s.toFinset.card :=
  (List.toFinset_card_of_nodup s.nodup).symm

/-! ### Steps with arrays and with finite sets -/

theorem toFinset_pick (made : List VarSet) (i : Nat) :
    (arrays.pick made i).toFinset = finsets.pick (made.map toFinset) i := by
  have hnil : finsets.ofList [] = (arrays.ofList []).toFinset := (toFinset_ofList []).symm
  rw [Operations.pick, Operations.pick, hnil, List.getD_eq_getElem?_getD,
    List.getD_eq_getElem?_getD, List.getElem?_map, Option.getD_map]

/-- A step makes with arrays what it makes with the finite sets of their members. -/
theorem toFinset_result (made : List VarSet) (step : Step) :
    (arrays.result made step).toFinset = finsets.result (made.map toFinset) step := by
  cases step with
  | ofList vs => exact toFinset_ofList vs
  | union i j =>
    simp only [Operations.result, ← toFinset_pick]
    exact toFinset_union _ _
  | diff i j =>
    simp only [Operations.result, ← toFinset_pick]
    exact toFinset_diff _ _

theorem map_toFinset_run (steps : List Step) :
    (arrays.run steps).map toFinset = finsets.run steps := by
  induction steps using List.reverseRecOn with
  | nil => rfl
  | append_singleton steps step ih =>
    rw [Operations.run_concat, Operations.run_concat, List.map_cons, toFinset_result, ih]

theorem toFinset_last (steps : List Step) : (arrays.last steps).toFinset = finsets.last steps := by
  rw [Operations.last, toFinset_pick, map_toFinset_run, Operations.last]

/-- **Sets of type variables are canonical.** Take any sequence of steps, with arrays and with
finite sets. The array at the end is strictly increasing and lists the members of the finite set in
order, the search in it finds exactly these members, and its size is their number. Two arrays that
any two sequences end with are the same position by position if and only if the finite sets are the
same. -/
theorem canonical_last (steps : List Step) :
    (arrays.last steps).ids.Pairwise (· < ·) ∧
    (arrays.last steps).ids = (finsets.last steps).sort (· ≤ ·) ∧
    (∀ v, (arrays.last steps).contains v = true ↔ v ∈ finsets.last steps) ∧
    (arrays.last steps).size = (finsets.last steps).card ∧
    ∀ steps', (arrays.last steps).equal (arrays.last steps') = true ↔
      finsets.last steps = finsets.last steps' := by
  simp only [← toFinset_last]
  refine ⟨sorted _, ids_eq_sort _, fun v => ?_, size_eq_card _, fun steps' => ?_⟩
  · rw [contains_iff, mem_toFinset]
  · rw [equal_iff, toFinset_inj]

/-- The same set, once by taking out what is in another one and once by putting two together. -/
example :
    (arrays.last [.ofList [5, 1, 3, 1, 5], .ofList [8, 2, 3], .diff 1 0]).ids = [1, 5] ∧
      (arrays.last [.ofList [5, 1, 3, 1, 5], .ofList [8, 2, 3], .diff 1 0]).equal
        (arrays.last [.ofList [5], .ofList [1, 5], .union 0 1]) = true := by
  decide

end VarSet

end LetPoly
