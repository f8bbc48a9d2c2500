import LetPoly.Program.Outline

/-!
# The parts of a node

The parts of a form are found inside of the node, so that reading a node part by part comes to an
end.

## Main results

* `sizeOf_lt_of_outline`: the parts of a node are smaller than the node.
-/

namespace LetPoly

open Text (Position)
open Yaml (Node)

/-- A step of a reading succeeds iff both of its halves do. -/
theorem checked_bind_eq_ok {α β : Type} {x : Checked α} {f : α → Checked β} {b : β} :
    (x >>= f) = .ok b ↔ ∃ a, x = .ok a ∧ f a = .ok b := by
  cases x <;> simp [bind, Except.bind]

@[simp]
theorem checked_pure_eq_ok {α : Type} {a b : α} : (pure a : Checked α) = .ok b ↔ a = b := by
  simp [pure, Except.pure]

@[simp]
theorem reject_ne_ok {α : Type} {q : Position} {p : Problem} {a : α} :
    (reject q p : Checked α) ≠ .ok a := by
  simp [reject]

/-- Fields come from the entries of a mapping. -/
theorem mem_of_addFields {allowed : List String} {entries : List (Node × Node)}
    {seen out : List (String × Node)} (h : addFields allowed entries seen = .ok out)
    {key : String} {v : Node} (hv : (key, v) ∈ out) :
    (key, v) ∈ seen ∨ ∃ k, k.keyText = key ∧ (k, v) ∈ entries := by
  induction entries generalizing seen with
  | nil =>
    simp only [addFields, Except.ok.injEq] at h
    exact .inl (h ▸ hv)
  | cons e entries ih =>
    obtain ⟨k, w⟩ := e
    rw [addFields] at h
    split at h
    · exact absurd h reject_ne_ok
    · split at h
      · exact absurd h reject_ne_ok
      · rcases ih h with h' | ⟨k', hk', h'⟩
        · rcases List.mem_append.1 h' with h' | h'
          · exact .inl h'
          · simp only [List.mem_singleton, Prod.mk.injEq] at h'
            exact .inr ⟨k, h'.1.symm, by simp [h'.2]⟩
        · exact .inr ⟨k', hk', List.mem_cons_of_mem _ h'⟩

/-- The value of an entry is smaller than its mapping. -/
theorem sizeOf_lt_mapping {q : Position} {entries : List (Node × Node)} {k v : Node}
    (h : (k, v) ∈ entries) : sizeOf v < sizeOf (Node.mapping q entries) := by
  have := List.sizeOf_lt_of_mem h
  simp only [Prod.mk.sizeOf_spec] at this
  simp only [Node.mapping.sizeOf_spec]
  omega

/-- An item is smaller than its sequence. -/
theorem sizeOf_lt_sequence {q : Position} {items : List Node} {n : Node} (h : n ∈ items) :
    sizeOf n < sizeOf (Node.sequence q items) := by
  have := List.sizeOf_lt_of_mem h
  simp only [Node.sequence.sizeOf_spec]
  omega

/-- What is found under a key stands among the entries. -/
theorem mem_of_lookup {entries : List (String × Node)} {key : String} {v : Node}
    (h : entries.lookup key = some v) : (key, v) ∈ entries := by
  induction entries with
  | nil => simp at h
  | cons e entries ih =>
    obtain ⟨k, w⟩ := e
    rw [List.lookup_cons] at h
    split at h
    · rename_i hk
      simp only [Option.some.injEq] at h
      simp [h, eq_of_beq hk]
    · exact List.mem_cons_of_mem _ (ih h)

/-- The value of a field is smaller than the node. -/
theorem sizeOf_lt_of_field {n : Node} {required optional : List String} {f : Fields}
    (hf : fields n required optional = .ok f) {key : String} {v : Node}
    (hv : f.entries.lookup key = some v) : sizeOf v < sizeOf n := by
  unfold fields at hf
  split at hf
  · obtain ⟨entries, he, hf⟩ := checked_bind_eq_ok.1 hf
    simp only [checked_pure_eq_ok] at hf
    subst hf
    rcases mem_of_addFields he (mem_of_lookup hv) with h | ⟨k, _, h⟩
    · simp at h
    · exact sizeOf_lt_mapping h
  · exact absurd hf reject_ne_ok

theorem lookup_of_get {f : Fields} {key : String} {v : Node} (h : f.get key = .ok v) :
    f.entries.lookup key = some v := by
  unfold Fields.get at h
  split at h
  · simp_all
  · exact absurd h reject_ne_ok

theorem sizeOf_lt_of_get {n : Node} {required optional : List String} {f : Fields}
    (hf : fields n required optional = .ok f) {key : String} {v : Node}
    (hv : f.get key = .ok v) : sizeOf v < sizeOf n :=
  sizeOf_lt_of_field hf (lookup_of_get hv)

theorem sizeOf_lt_of_listed {n m : Node} {items : List Node} (h : listed n = .ok items)
    (hm : m ∈ items) : sizeOf m < sizeOf n := by
  unfold listed at h
  split at h
  · simp only [Except.ok.injEq] at h
    exact sizeOf_lt_sequence (h ▸ hm)
  · exact absurd h reject_ne_ok

theorem sizeOf_lt_of_operands {n m : Node} {items : List Node} (h : operands n = .ok items)
    (hm : m ∈ items) : sizeOf m < sizeOf n := by
  unfold operands at h
  split at h
  · split at h
    · simp only [Except.ok.injEq] at h
      exact sizeOf_lt_sequence (h ▸ hm)
    · exact absurd h reject_ne_ok
  · exact absurd h reject_ne_ok

/-! ### Forms -/

theorem sizeOf_lt_of_iteOutline {q : Position} {n p : Node} {o : Outline}
    (h : iteOutline q n = .ok o) (hp : p ∈ o.parts) : sizeOf p < sizeOf n := by
  simp only [iteOutline, checked_bind_eq_ok, checked_pure_eq_ok] at h
  obtain ⟨f, hf, c, hc, t, ht, e, he, rfl⟩ := h
  simp only [List.mem_cons, List.not_mem_nil, or_false] at hp
  rcases hp with rfl | rfl | rfl
  · exact sizeOf_lt_of_get hf hc
  · exact sizeOf_lt_of_get hf ht
  · exact sizeOf_lt_of_get hf he

theorem sizeOf_lt_of_letOutline {q : Position} {n p : Node} {o : Outline}
    (h : letOutline q n = .ok o) (hp : p ∈ o.parts) : sizeOf p < sizeOf n := by
  simp only [letOutline, checked_bind_eq_ok] at h
  obtain ⟨f, hf, x, _, v, hv, b, hb, name, _, h⟩ := h
  have hparts : o.parts = [v, b] := by
    split at h <;> simp only [checked_pure_eq_ok] at h <;> subst h <;> rfl
  simp only [hparts, List.mem_cons, List.not_mem_nil, or_false] at hp
  rcases hp with rfl | rfl
  · exact sizeOf_lt_of_get hf hv
  · exact sizeOf_lt_of_get hf hb

theorem sizeOf_lt_of_letRecOutline {q : Position} {n p : Node} {o : Outline}
    (h : letRecOutline q n = .ok o) (hp : p ∈ o.parts) : sizeOf p < sizeOf n := by
  simp only [letRecOutline, checked_bind_eq_ok, checked_pure_eq_ok] at h
  obtain ⟨f, hf, x, _, as, _, b, hb, r, hr, name, _, args, _, rfl⟩ := h
  simp only [List.mem_cons, List.not_mem_nil, or_false] at hp
  rcases hp with rfl | rfl
  · exact sizeOf_lt_of_get hf hb
  · exact sizeOf_lt_of_get hf hr

theorem sizeOf_lt_of_appOutline {q : Position} {n p : Node} {o : Outline}
    (h : appOutline q n = .ok o) (hp : p ∈ o.parts) : sizeOf p < sizeOf n := by
  simp only [appOutline, checked_bind_eq_ok] at h
  obtain ⟨f, hf, fn, hfn, h⟩ := h
  split at h
  · simp only [checked_pure_eq_ok] at h
    subst h
    simp only [List.mem_singleton] at hp
    exact hp ▸ sizeOf_lt_of_get hf hfn
  · rename_i args hargs
    simp only [checked_pure_eq_ok] at h
    subst h
    obtain ⟨a, ha, hl⟩ := Option.map_eq_some_iff.1 hargs
    rcases List.mem_cons.1 hp with rfl | hp
    · exact sizeOf_lt_of_get hf hfn
    · exact Nat.lt_trans (sizeOf_lt_of_listed hl hp) (sizeOf_lt_of_field hf ha)
  · simp only [checked_pure_eq_ok] at h
    subst h
    simp only [List.mem_singleton] at hp
    exact hp ▸ sizeOf_lt_of_get hf hfn

theorem sizeOf_lt_of_letTupleOutline {q : Position} {n p : Node} {o : Outline}
    (h : letTupleOutline q n = .ok o) (hp : p ∈ o.parts) : sizeOf p < sizeOf n := by
  simp only [letTupleOutline, checked_bind_eq_ok, checked_pure_eq_ok] at h
  obtain ⟨f, hf, x, _, v, hv, b, hb, names, _, rfl⟩ := h
  simp only [List.mem_cons, List.not_mem_nil, or_false] at hp
  rcases hp with rfl | rfl
  · exact sizeOf_lt_of_get hf hv
  · exact sizeOf_lt_of_get hf hb

/-- The parts of a form are what belongs to its name, or inside of it. -/
theorem sizeOf_le_of_form {q : Position} {name : String} {n p : Node} {o : Outline}
    (h : form q name n = .ok o) (hp : p ∈ o.parts) : sizeOf p ≤ sizeOf n := by
  unfold form at h
  split at h
  · obtain ⟨items, hi, h⟩ := checked_bind_eq_ok.1 h
    simp only [checked_pure_eq_ok] at h
    subst h
    exact Nat.le_of_lt (sizeOf_lt_of_operands hi hp)
  · split at h
    · obtain ⟨x, _, h⟩ := checked_bind_eq_ok.1 h
      simp only [checked_pure_eq_ok] at h
      subst h
      simp at hp
    · simp only [Except.ok.injEq] at h
      subst h
      simp_all
    · simp only [Except.ok.injEq] at h
      subst h
      simp_all
    · obtain ⟨items, hi, h⟩ := checked_bind_eq_ok.1 h
      simp only [checked_pure_eq_ok] at h
      subst h
      exact Nat.le_of_lt (sizeOf_lt_of_listed hi hp)
    · exact Nat.le_of_lt (sizeOf_lt_of_iteOutline h hp)
    · exact Nat.le_of_lt (sizeOf_lt_of_letOutline h hp)
    · exact Nat.le_of_lt (sizeOf_lt_of_letRecOutline h hp)
    · exact Nat.le_of_lt (sizeOf_lt_of_appOutline h hp)
    · exact Nat.le_of_lt (sizeOf_lt_of_letTupleOutline h hp)
    · exact absurd h reject_ne_ok

/-- The parts of a node are smaller than the node. -/
theorem sizeOf_lt_of_outline {n p : Node} {o : Outline} (h : outline n = .ok o)
    (hp : p ∈ o.parts) : sizeOf p < sizeOf n := by
  fun_induction outline n with
  | case1 _ _ target ih =>
    have := ih h
    simp only [Node.alias.sizeOf_spec]
    omega
  | case2 q tag text =>
    obtain ⟨e, _, h⟩ := checked_bind_eq_ok.1 h
    simp only [checked_pure_eq_ok] at h
    subst h
    simp at hp
  | case3 q items =>
    simp only [Except.ok.injEq] at h
    subst h
    exact sizeOf_lt_sequence hp
  | case4 q key value =>
    exact Nat.lt_of_le_of_lt (sizeOf_le_of_form h hp) (sizeOf_lt_mapping (List.mem_singleton.2 rfl))
  | case5 => exact absurd h reject_ne_ok

end LetPoly
