
/-!
# Sets of type variables

A type variable is known by an integer, its id. A set of variables is kept as the strictly
increasing array of its members, so two sets with the same members are the same value. Members are
looked for by halving, sets are combined by merging and compared position by position, and all of
this counts on the order.

## Main definitions

* `VarSet`: a finite set of variables, `VarSet.ofList` its constructor, `VarSet.ids` its members.
* `VarSet.union`, `VarSet.diff`, `VarSet.contains`, `VarSet.size`, `VarSet.equal`: the set
  operations.
* `VarSet.render`: the set in braces, `{1, 3, 5}`.

## Main results

* `VarSet.mem_ofList`, `VarSet.mem_union`, `VarSet.mem_diff`: membership after each operation.
* `VarSet.contains_iff`: the search finds exactly the members.
* `VarSet.size_le_of_subset`, `VarSet.size_lt_of_subset`: a set inside another is no larger, and is
  smaller when it misses a member.
-/

namespace LetPoly

/-- A finite set of type variables, kept in strictly increasing order. -/
structure VarSet where
  /-- The members, smallest first. -/
  elems : Array Int
  sorted : elems.toList.Pairwise (· < ·)

namespace VarSet

/-! ### Increasing lists -/

/-- Puts `v` at its place in an increasing list, unless it is there already. -/
def insertInto (v : Int) : List Int → List Int
  | [] => [v]
  | x :: xs => if v < x then v :: x :: xs else if v = x then x :: xs else x :: insertInto v xs

/-- The ids of a list in increasing order, each of them once. -/
def arrange (vs : List Int) : List Int :=
  vs.foldr insertInto []

/-- Merges two increasing lists. An id that is in both comes once. -/
@[semireducible]
def merge : List Int → List Int → List Int
  | [], ys => ys
  | x :: xs, [] => x :: xs
  | x :: xs, y :: ys =>
    if x < y then x :: merge xs (y :: ys)
    else if y < x then y :: merge (x :: xs) ys
    else x :: merge xs ys
termination_by xs ys => xs.length + ys.length

/-- Takes the ids of the second increasing list out of the first one. -/
@[semireducible]
def subtract : List Int → List Int → List Int
  | [], _ => []
  | x :: xs, [] => x :: xs
  | x :: xs, y :: ys =>
    if x < y then x :: subtract xs (y :: ys)
    else if y < x then subtract (x :: xs) ys
    else subtract xs ys
termination_by xs ys => xs.length + ys.length

theorem mem_insertInto {v x : Int} {xs : List Int} :
    x ∈ insertInto v xs ↔ x = v ∨ x ∈ xs := by
  induction xs with
  | nil => simp [insertInto]
  | cons y ys ih =>
    simp only [insertInto]
    split
    · simp
    · split
      · subst v; simp
      · rw [List.mem_cons, ih, List.mem_cons]
        exact or_left_comm

theorem sorted_insertInto (v : Int) {xs : List Int} (h : xs.Pairwise (· < ·)) :
    (insertInto v xs).Pairwise (· < ·) := by
  induction xs with
  | nil => simp [insertInto]
  | cons y ys ih =>
    rw [List.pairwise_cons] at h
    simp only [insertInto]
    split
    · rename_i hv
      rw [List.pairwise_cons]
      refine ⟨fun z hz => ?_, List.pairwise_cons.2 h⟩
      rcases List.mem_cons.1 hz with rfl | hz
      · exact hv
      · exact Int.lt_trans hv (h.1 z hz)
    · split
      · exact List.pairwise_cons.2 h
      · rw [List.pairwise_cons]
        refine ⟨fun z hz => ?_, ih h.2⟩
        rcases mem_insertInto.1 hz with rfl | hz
        · omega
        · exact h.1 z hz

theorem mem_arrange {v : Int} {vs : List Int} : v ∈ arrange vs ↔ v ∈ vs := by
  induction vs with
  | nil => exact Iff.rfl
  | cons x xs ih => rw [arrange, List.foldr_cons, mem_insertInto, List.mem_cons, ← ih, arrange]

theorem sorted_arrange (vs : List Int) : (arrange vs).Pairwise (· < ·) := by
  induction vs with
  | nil => exact .nil
  | cons x xs ih => exact sorted_insertInto x ih

theorem mem_merge {v : Int} {xs ys : List Int} : v ∈ merge xs ys ↔ v ∈ xs ∨ v ∈ ys := by
  fun_induction merge xs ys with
  | case1 ys => simp
  | case2 x xs => simp
  | case3 x xs y ys hlt ih => simp only [List.mem_cons, ih, or_assoc]
  | case4 x xs y ys hge hlt ih =>
    rw [List.mem_cons, ih, List.mem_cons (l := ys)]
    exact or_left_comm
  | case5 x xs y ys hge hle ih =>
    obtain rfl : x = y := by omega
    rw [List.mem_cons, ih, List.mem_cons, List.mem_cons, or_or_or_comm, or_self]

/-- An id below the head of an increasing list is below all of the list. -/
theorem lt_of_lt_head {v x y : Int} {xs : List Int} (h : (x :: xs).Pairwise (· < ·)) (hv : v < x)
    (hy : y ∈ x :: xs) : v < y := by
  rcases List.mem_cons.1 hy with rfl | hy
  · exact hv
  · exact Int.lt_trans hv (List.rel_of_pairwise_cons h hy)

theorem sorted_merge {xs ys : List Int} (hxs : xs.Pairwise (· < ·)) (hys : ys.Pairwise (· < ·)) :
    (merge xs ys).Pairwise (· < ·) := by
  fun_induction merge xs ys with
  | case1 ys => exact hys
  | case2 x xs => exact hxs
  | case3 x xs y ys hlt ih =>
    refine List.pairwise_cons.2 ⟨fun z hz => ?_, ih hxs.of_cons hys⟩
    rcases mem_merge.1 hz with hz | hz
    · exact List.rel_of_pairwise_cons hxs hz
    · exact lt_of_lt_head hys hlt hz
  | case4 x xs y ys hge hlt ih =>
    refine List.pairwise_cons.2 ⟨fun z hz => ?_, ih hxs hys.of_cons⟩
    rcases mem_merge.1 hz with hz | hz
    · exact lt_of_lt_head hxs hlt hz
    · exact List.rel_of_pairwise_cons hys hz
  | case5 x xs y ys hge hle ih =>
    obtain rfl : x = y := by omega
    refine List.pairwise_cons.2 ⟨fun z hz => ?_, ih hxs.of_cons hys.of_cons⟩
    rcases mem_merge.1 hz with hz | hz
    · exact List.rel_of_pairwise_cons hxs hz
    · exact List.rel_of_pairwise_cons hys hz

theorem subtract_sublist (xs ys : List Int) : (subtract xs ys).Sublist xs := by
  fun_induction subtract xs ys with
  | case1 ys => exact List.Sublist.refl _
  | case2 x xs => exact List.Sublist.refl _
  | case3 x xs y ys hlt ih => exact ih.cons_cons x
  | case4 x xs y ys hge hlt ih => exact ih
  | case5 x xs y ys hge hle ih => exact ih.cons x

theorem mem_subtract {v : Int} {xs ys : List Int} (hxs : xs.Pairwise (· < ·))
    (hys : ys.Pairwise (· < ·)) : v ∈ subtract xs ys ↔ v ∈ xs ∧ v ∉ ys := by
  fun_induction subtract xs ys with
  | case1 ys => simp
  | case2 x xs => simp
  | case3 x xs y ys hlt ih =>
    have hx : x ∉ y :: ys := fun h => Int.lt_irrefl x (lt_of_lt_head hys hlt h)
    rw [List.mem_cons, ih hxs.of_cons hys, List.mem_cons (l := xs)]
    constructor
    · rintro (rfl | ⟨h, hn⟩)
      · exact ⟨.inl rfl, hx⟩
      · exact ⟨.inr h, hn⟩
    · rintro ⟨h, hn⟩
      exact h.imp_right fun h => ⟨h, hn⟩
  | case4 x xs y ys hge hlt ih =>
    rw [ih hxs hys.of_cons, List.mem_cons (l := ys), not_or]
    refine and_congr_right fun h => ⟨fun hn => ⟨?_, hn⟩, And.right⟩
    exact Int.ne_of_gt (lt_of_lt_head hxs hlt h)
  | case5 x xs y ys hge hle ih =>
    obtain rfl : x = y := by omega
    rw [ih hxs.of_cons hys.of_cons, List.mem_cons, List.mem_cons, not_or]
    constructor
    · rintro ⟨h, hn⟩
      exact ⟨.inr h, Int.ne_of_gt (List.rel_of_pairwise_cons hxs h), hn⟩
    · rintro ⟨h, hne, hn⟩
      exact ⟨h.resolve_left hne, hn⟩

/-! ### Search by halving -/

/-- Looks among the positions from `lo` to `hi` for the first one that has no id below `v`, by
halving. The ids have to be increasing for that. -/
@[semireducible]
def search (xs : Array Int) (v : Int) (lo hi : Nat) (hhi : hi ≤ xs.size) : Nat :=
  if h : lo < hi then
    let mid := (lo + hi) / 2
    if xs[mid] < v then search xs v (mid + 1) hi hhi else search xs v lo mid (by omega)
  else lo
termination_by hi - lo

/-- What is known of the ids while the positions from `lo` to `hi` are left: those before are below
`v` and those after are not. -/
structure Splits (xs : Array Int) (v : Int) (lo hi : Nat) : Prop where
  below : ∀ i (h : i < xs.size), i < lo → xs[i] < v
  above : ∀ i (h : i < xs.size), hi ≤ i → v ≤ xs[i]

theorem lt_of_sorted {xs : Array Int} (h : xs.toList.Pairwise (· < ·)) {i j : Nat} (hij : i < j)
    (hj : j < xs.size) : xs[i] < xs[j] := by
  have := List.pairwise_iff_getElem.1 h i j (Nat.lt_trans hij hj) hj hij
  rwa [Array.getElem_toList, Array.getElem_toList] at this

theorem le_of_sorted {xs : Array Int} (h : xs.toList.Pairwise (· < ·)) {i j : Nat} (hij : i ≤ j)
    (hj : j < xs.size) : xs[i] ≤ xs[j] := by
  rcases Nat.lt_or_eq_of_le hij with hij | rfl
  · exact Int.le_of_lt (lt_of_sorted h hij hj)
  · exact Int.le_refl _

/-- Halving keeps what is known, and in the end no position is left. -/
theorem splits_search {xs : Array Int} (hxs : xs.toList.Pairwise (· < ·)) {v : Int} {lo hi : Nat}
    (hhi : hi ≤ xs.size) (h : Splits xs v lo hi) :
    Splits xs v (search xs v lo hi hhi) (search xs v lo hi hhi) := by
  fun_induction search xs v lo hi hhi with
  | case1 lo hi hhi hlt mid hmid ih =>
    refine ih ⟨fun i hsize hle => ?_, h.above⟩
    exact Int.lt_of_le_of_lt (le_of_sorted hxs (Nat.le_of_lt_succ hle) _) hmid
  | case2 lo hi hhi hlt mid hmid ih =>
    refine ih ⟨h.below, fun i hsize hle => ?_⟩
    exact Int.le_trans (Int.not_lt.1 hmid) (le_of_sorted hxs hle hsize)
  | case3 lo hi hhi hge =>
    exact ⟨h.below, fun i hsize hle => h.above i hsize (Nat.le_trans (Nat.not_lt.1 hge) hle)⟩

/-! ### The operations -/

/-- The members, smallest first, as a list. -/
def ids (s : VarSet) : List Int :=
  s.elems.toList

/-- The set of the ids in an increasing list. -/
def ofSorted (xs : List Int) (h : xs.Pairwise (· < ·)) : VarSet :=
  ⟨xs.toArray, h⟩

/-- The set without members. -/
def empty : VarSet := ofSorted [] .nil

instance : EmptyCollection VarSet := ⟨empty⟩

instance : Inhabited VarSet := ⟨empty⟩

instance : Membership Int VarSet := ⟨fun s v => v ∈ s.ids⟩

instance (v : Int) (s : VarSet) : Decidable (v ∈ s) :=
  inferInstanceAs (Decidable (v ∈ s.ids))

/-- The set of the variables in a list, in any order and with any repeats. -/
def ofList (vs : List Int) : VarSet :=
  ofSorted (arrange vs) (sorted_arrange vs)

/-- The number of members. -/
def size (s : VarSet) : Nat :=
  s.elems.size

theorem size_eq_length (s : VarSet) : s.size = s.ids.length := rfl

/-- The number of members below `v`, which is the position of `v` if it is a member. -/
def position (s : VarSet) (v : Int) : Nat :=
  search s.elems v 0 s.elems.size (Nat.le_refl _)

/-- Is `v` a member? -/
def contains (s : VarSet) (v : Int) : Bool :=
  s.elems[s.position v]? == some v

/-- The variables of either set. If one of them is empty, this is the other one. -/
def union (s t : VarSet) : VarSet :=
  if t.size = 0 then s
  else if s.size = 0 then t
  else ofSorted (merge s.ids t.ids) (sorted_merge s.sorted t.sorted)

/-- The variables of `s` that are not in `t`. If one of the sets is empty, this is `s`. -/
def diff (s t : VarSet) : VarSet :=
  if s.size = 0 ∨ t.size = 0 then s
  else ofSorted (subtract s.ids t.ids) (s.sorted.sublist (subtract_sublist _ _))

/-- Have the sets the same size and the same ids at the same positions? -/
def equal (s t : VarSet) : Bool :=
  s.elems.isEqv t.elems (· == ·)

/-- The set in braces, smallest member first. -/
def render (s : VarSet) : String :=
  "\x7b" ++ ", ".intercalate (s.ids.map toString) ++ "\x7d"

@[simp] theorem equal_iff {s t : VarSet} : s.equal t = true ↔ s = t := by
  obtain ⟨xs, hxs⟩ := s
  obtain ⟨ys, hys⟩ := t
  rw [mk.injEq]
  exact beq_iff_eq (a := xs) (b := ys)

instance : DecidableEq VarSet := fun _ _ => decidable_of_iff _ equal_iff

/-! ### Membership -/

theorem mem_def {v : Int} {s : VarSet} : v ∈ s ↔ v ∈ s.ids := Iff.rfl

@[simp] theorem ids_ofSorted {xs : List Int} (h : xs.Pairwise (· < ·)) :
    (ofSorted xs h).ids = xs := rfl

@[simp] theorem not_mem_empty (v : Int) : ¬ v ∈ (∅ : VarSet) :=
  List.not_mem_nil

theorem not_mem_of_size_eq_zero {s : VarSet} (h : s.size = 0) (v : Int) : ¬ v ∈ s := by
  have hids : s.ids = [] := List.eq_nil_of_length_eq_zero h
  rw [mem_def, hids]
  exact List.not_mem_nil

@[simp] theorem mem_ofList {v : Int} {vs : List Int} : v ∈ ofList vs ↔ v ∈ vs :=
  mem_arrange

/-- **The search finds exactly the members.** -/
@[simp] theorem contains_iff {v : Int} {s : VarSet} : s.contains v = true ↔ v ∈ s := by
  have hsplits : Splits s.elems v (s.position v) (s.position v) :=
    splits_search s.sorted _ ⟨fun i _ hi => absurd hi (Nat.not_lt_zero i),
      fun i h hi => absurd h (Nat.not_lt.2 hi)⟩
  rw [contains, beq_iff_eq, mem_def, ids, Array.mem_toList_iff]
  refine ⟨Array.mem_of_getElem?, fun hv => ?_⟩
  obtain ⟨i, hi, rfl⟩ := Array.mem_iff_getElem.1 hv
  -- the position is not after that of `v`, and not before it either
  have hle : ¬ i < s.position s.elems[i] := fun h => Int.lt_irrefl _ (hsplits.below i hi h)
  have hge : ¬ s.position s.elems[i] < i := fun h =>
    Int.not_lt.2 (hsplits.above _ (Nat.lt_trans h hi) (Nat.le_refl _)) (lt_of_sorted s.sorted h hi)
  rw [Array.getElem?_eq_some_iff]
  exact ⟨by omega, by congr 1; omega⟩

/-- Sets with the same members are equal. -/
theorem ext {s t : VarSet} (h : ∀ v, v ∈ s ↔ v ∈ t) : s = t := by
  obtain ⟨⟨xs⟩, hxs⟩ := s
  obtain ⟨⟨ys⟩, hys⟩ := t
  have hperm : xs.Perm ys :=
    (List.perm_ext_iff_of_nodup (hxs.imp Int.ne_of_lt) (hys.imp Int.ne_of_lt)).2 h
  have hanti : ∀ a b, a ∈ xs → b ∈ ys → a < b → b < a → a = b :=
    fun a b _ _ hab hba => absurd hba (Int.not_lt.2 (Int.le_of_lt hab))
  obtain rfl := hperm.eq_of_pairwise hanti hxs hys
  rfl

theorem contains_eq_decide (s : VarSet) (v : Int) : s.contains v = decide (v ∈ s) := by
  rw [Bool.eq_iff_iff, contains_iff, decide_eq_true_iff]

@[simp] theorem mem_union {v : Int} {s t : VarSet} : v ∈ s.union t ↔ v ∈ s ∨ v ∈ t := by
  rw [union]
  split
  · rename_i ht
    simp [not_mem_of_size_eq_zero ht v]
  · split
    · rename_i hs
      simp [not_mem_of_size_eq_zero hs v]
    · exact mem_merge

@[simp] theorem mem_diff {v : Int} {s t : VarSet} : v ∈ s.diff t ↔ v ∈ s ∧ ¬ v ∈ t := by
  rw [diff]
  split
  · rename_i h
    rcases h with hs | ht
    · simp [not_mem_of_size_eq_zero hs v]
    · simp [not_mem_of_size_eq_zero ht v]
  · exact mem_subtract s.sorted t.sorted

/-! ### Size -/

theorem nodup (s : VarSet) : s.ids.Nodup :=
  s.sorted.imp fun h => Int.ne_of_lt h

theorem size_le_of_subset {s t : VarSet} (h : ∀ v, v ∈ s → v ∈ t) : s.size ≤ t.size :=
  s.nodup.length_le_of_subset h

theorem size_lt_of_subset {s t : VarSet} (h : ∀ v, v ∈ s → v ∈ t) {x : Int} (hx : x ∈ t)
    (hn : ¬ x ∈ s) : s.size < t.size := by
  have hnodup : (x :: s.ids).Nodup := List.nodup_cons.2 ⟨hn, s.nodup⟩
  have hsubset : x :: s.ids ⊆ t.ids := List.cons_subset.2 ⟨hx, h⟩
  exact hnodup.length_le_of_subset hsubset

end VarSet

end LetPoly
