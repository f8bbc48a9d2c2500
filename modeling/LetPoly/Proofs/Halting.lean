import LetPoly.Proofs.Unification
import Mathlib.Data.Finset.Card
import Mathlib.Data.Finset.Dedup
import Mathlib.Order.WellFounded

/-!
# Unification comes to an end

The search works in turns. Each turn takes the top constraint off the stack: it drops the
constraint, binds a variable, puts the constraints between the parts of two types in its place, or
gives up. Binding a variable may make the constraints that are left much larger, so their size says
nothing about the turns to come. But the variable is gone for good, since the occurs check has
kept it out of the type it stands for, and all other turns make the constraints smaller without
bringing in a variable.

## Main definitions

* `Search`: the constraints that are left, and the equations found so far.
* `Turn`, `Search.turn`: one turn of the search.
* `Search.run`: so many turns, one after the other.

## Main results

* `Search.turn_decreases`: a turn leaves fewer variables, or no more variables and smaller
  constraints.
* `Search.result_turn`: a turn does not change what the search will find.
* `Search.exists_run`: the search halts, and gives what `solve` finds.
* `unify_halts`: unification halts, with at most one equation for each id of the constraints.
-/

namespace LetPoly

/-- A moment of the search: the constraints that are left, the top one first, and the equations
found so far. -/
structure Search where
  pending : List Constraint
  found : Subst

/-- What a turn of the search leads to. -/
inductive Turn where
  | goOn (next : Search)
  | halt (result : Except TypeError Subst)

namespace Search

/-- The search for a list of constraints starts with the last one on top. -/
def start (cs : List Constraint) : Search :=
  ⟨cs.reverse, []⟩

/-- Binds a variable in all constraints that are left, unless it would have to contain itself. -/
def bindVar (v : Int) (t : Ty) (rest : List Constraint) (found : Subst) : Turn :=
  if v ∈ t.vars then .halt (.error ⟨.occursCheck, .var v, t⟩)
  else .goOn ⟨Constraint.replaceAll rest v t, found ++ [⟨v, t⟩]⟩

/-- One turn of the search. -/
def turn (s : Search) : Turn :=
  match s.pending with
  | [] => .halt (.ok s.found)
  | ⟨.var v, t⟩ :: rest =>
    if t = .var v then .goOn ⟨rest, s.found⟩ else bindVar v t rest s.found
  | ⟨t, .var v⟩ :: rest => bindVar v t rest s.found
  | ⟨.const m, .const n⟩ :: rest =>
    if m = n then .goOn ⟨rest, s.found⟩ else .halt (.error ⟨.mismatch, .const m, .const n⟩)
  | ⟨.arrow as r, .arrow bs r'⟩ :: rest =>
    .goOn ⟨⟨.tuple as, .tuple bs⟩ :: ⟨r, r'⟩ :: rest, s.found⟩
  | ⟨.tuple as, .tuple bs⟩ :: rest =>
    if as.length = bs.length then .goOn ⟨Constraint.between as bs ++ rest, s.found⟩
    else .halt (.error ⟨.arity, .tuple as, .tuple bs⟩)
  | ⟨a, b⟩ :: _ => .halt (.error ⟨.mismatch, a, b⟩)

/-- What the search has found after so many turns, if it has come to an end by then. -/
def run : Nat → Search → Option (Except TypeError Subst)
  | 0, _ => none
  | k + 1, s =>
    match s.turn with
    | .goOn s' => s'.run k
    | .halt r => some r

/-! ### Turns -/

/-- The variables that are left, and the size of the constraints that are left. -/
def measure (s : Search) : Nat × Nat :=
  (Constraint.varCount s.pending, Constraint.size s.pending)

/-- The number of variables counts for more than the size. -/
def Smaller (s' s : Search) : Prop :=
  Prod.Lex (· < ·) (· < ·) s'.measure s.measure

theorem wellFounded_smaller : WellFounded Smaller :=
  InvImage.wf measure (WellFounded.prod_lex wellFounded_lt wellFounded_lt)

theorem smaller_of_size_lt {s s' : Search}
    (hvars : Constraint.varCount s'.pending ≤ Constraint.varCount s.pending)
    (hsize : Constraint.size s'.pending < Constraint.size s.pending) : s'.Smaller s := by
  rcases Nat.lt_or_eq_of_le hvars with hlt | heq
  · exact .left _ _ hlt
  · rw [Smaller, measure, measure, heq]
    exact .right _ hsize

/-- A turn that binds a variable of the top constraint to the other side. -/
theorem smaller_of_bindVar {v : Int} {t : Ty} {c : Constraint} {rest : List Constraint}
    {found : Subst} {s' : Search} (hc : c = ⟨.var v, t⟩ ∨ c = ⟨t, .var v⟩)
    (h : bindVar v t rest found = .goOn s') : s'.Smaller ⟨c :: rest, found⟩ := by
  rw [bindVar] at h
  split at h
  · cases h
  · rename_i hv
    obtain rfl := Turn.goOn.inj h
    refine .left _ _ (Constraint.varCount_replaceAll_lt ?_ ?_ hv)
    · rcases hc with rfl | rfl <;> simp [Ty.vars]
    · rcases hc with rfl | rfl <;> simp +contextual

/-- A turn leaves fewer variables, or no more variables and smaller constraints. -/
theorem turn_decreases {s s' : Search} (h : s.turn = .goOn s') : s'.Smaller s := by
  obtain ⟨pending, found⟩ := s
  simp only [turn] at h
  split at h
  · cases h
  · split at h
    · obtain rfl := Turn.goOn.inj h
      refine smaller_of_size_lt (Constraint.varCount_le_cons _ _) ?_
      simp only [Constraint.size, Ty.size]
      omega
    · exact smaller_of_bindVar (.inl rfl) h
  · exact smaller_of_bindVar (.inr rfl) h
  · split at h
    · obtain rfl := Turn.goOn.inj h
      refine smaller_of_size_lt (Constraint.varCount_le_cons _ _) ?_
      simp only [Constraint.size, Ty.size]
      omega
    · cases h
  · obtain rfl := Turn.goOn.inj h
    refine smaller_of_size_lt (Constraint.varCount_arrow_le ..) ?_
    simp only [Constraint.size, Ty.size]
    omega
  · rename_i as bs rest
    split at h
    · obtain rfl := Turn.goOn.inj h
      refine smaller_of_size_lt (Constraint.varCount_tuple_le ..) ?_
      have := Constraint.size_between_le as bs
      simp only [Constraint.size, Constraint.size_append, Ty.size]
      omega
    · cases h
  · cases h

/-- There is no endless search. -/
theorem exists_turn_ne (f : Nat → Search) : ∃ k, (f k).turn ≠ .goOn (f (k + 1)) := by
  by_contra hno
  push Not at hno
  exact (wellFounded_iff_isEmpty_descending_chain.1 wellFounded_smaller).elim
    ⟨f, fun k => turn_decreases (hno k)⟩

/-! ### Results -/

/-- What the search finds from a moment on, behind what it has found before. -/
def result (s : Search) : Except TypeError Subst :=
  match (solve s.pending).failure with
  | some e => .error e
  | none => .ok (s.found ++ (solve s.pending).solved)

theorem result_start (cs : List Constraint) : (start cs).result = unify cs := rfl

end Search

/-- What the search finds with a turn and after it. -/
def Turn.result : Turn → Except TypeError Subst
  | .goOn s => s.result
  | .halt r => r

namespace Search

/-- The new equation stands between those found before and those found later. -/
theorem result_bindVar {v : Int} {t : Ty} (hv : v ∉ t.vars) (rest : List Constraint)
    (found : Subst) :
    (bindVar v t rest found).result =
      match (solve (Constraint.replaceAll rest v t)).failure with
      | some e => .error e
      | none => .ok (found ++ ⟨v, t⟩ :: (solve (Constraint.replaceAll rest v t)).solved) := by
  rw [bindVar, if_neg hv]
  simp only [Turn.result, result, List.append_assoc, List.singleton_append]

/-- A turn does not change what the search will find. -/
theorem result_turn (s : Search) : s.turn.result = s.result := by
  obtain ⟨pending, found⟩ := s
  simp only [result]
  -- `solve` is unfolded once, where the search goes on as well as where it halts
  fun_cases solve pending with
  | case1 => simp only [turn, Turn.result, List.append_nil]
  | case2 v rest => simp only [turn, if_pos, Turn.result, result]
  | case3 v t rest hne hv => simp only [turn, if_neg hne, bindVar, if_pos hv, Turn.result]
  | case4 v t rest hne hv r => simpa only [turn, if_neg hne] using result_bindVar hv rest found
  | case5 t v rest hvar hv => simp only [turn, bindVar, if_pos hv, Turn.result]
  | case6 t v rest hvar hv r => simpa only [turn] using result_bindVar hv rest found
  | case7 n rest => simp only [turn, if_pos, Turn.result, result]
  | case8 m n rest hne => simp only [turn, if_neg hne, Turn.result]
  | case9 as r bs r' rest => simp only [turn, Turn.result, result]
  | case10 as bs rest hlen => simp only [turn, if_pos hlen, Turn.result, result]
  | case11 as bs rest hlen => simp only [turn, if_neg hlen, Turn.result]
  | case12 a b rest hvar hvar' hconst harrow htuple => simp only [turn, Turn.result]

/-- The search comes to an end after some number of turns, and gives what `solve` finds. -/
theorem exists_run (s : Search) : ∃ k, s.run k = some s.result := by
  induction s using wellFounded_smaller.induction with
  | _ s ih =>
    have hresult := s.result_turn
    cases hturn : s.turn with
    | halt r =>
      rw [hturn] at hresult
      refine ⟨1, ?_⟩
      rw [run, hturn, ← hresult]
      rfl
    | goOn s' =>
      rw [hturn] at hresult
      obtain ⟨k, hk⟩ := ih s' (turn_decreases hturn)
      refine ⟨k + 1, ?_⟩
      rw [run, hturn, ← hresult]
      exact hk

end Search

/-! ### The number of equations -/

/-- The equations found bind distinct ids of the constraints. -/
theorem Solved.length_le {cs : List Constraint} {s : Subst} (h : Solved cs s) :
    s.length ≤ (Constraint.vars cs).toFinset.card := by
  have hnodup : (s.map (·.var)).Nodup := by
    rw [List.Nodup, List.pairwise_map]
    exact h.triangular.later.imp fun hlater => Ne.symm hlater.1
  have hids : s.Within (· ∈ Constraint.vars cs) := h.within fun c hc =>
    ⟨fun v hv => Constraint.mem_vars.2 ⟨c, hc, .inl hv⟩,
      fun v hv => Constraint.mem_vars.2 ⟨c, hc, .inr hv⟩⟩
  calc s.length
      = (s.map (·.var)).toFinset.card := by
        rw [List.toFinset_card_of_nodup hnodup, List.length_map]
    _ ≤ (Constraint.vars cs).toFinset.card := by
        refine Finset.card_le_card fun v hv => ?_
        obtain ⟨q, hq, rfl⟩ := List.mem_map.1 (List.mem_toFinset.1 hv)
        exact List.mem_toFinset.2 (hids q hq).1

/-- **Unification always comes to an end.** Whatever the constraints, the search cannot go on turn
after turn for ever; it halts with the answer of `unify`. If that is a substitution, it has at most
one equation for each of the distinct ids in the constraints. -/
theorem unify_halts (cs : List Constraint) :
    (¬ ∃ f : Nat → Search, f 0 = .start cs ∧ ∀ k, (f k).turn = .goOn (f (k + 1))) ∧
    (∃ k, (Search.start cs).run k = some (unify cs)) ∧
    ∀ s, unify cs = .ok s → s.length ≤ (Constraint.vars cs).toFinset.card := by
  refine ⟨?_, Search.result_start cs ▸ (Search.start cs).exists_run, fun s hs => ?_⟩
  · rintro ⟨f, -, hf⟩
    obtain ⟨k, hk⟩ := Search.exists_turn_ne f
    exact hk (hf k)
  · obtain ⟨hf, rfl⟩ := unify_eq_ok.1 hs
    refine (solved_of_solve cs.reverse hf).length_le.trans (Finset.card_le_card fun v hv => ?_)
    obtain ⟨c, hc, hv⟩ := Constraint.mem_vars.1 (List.mem_toFinset.1 hv)
    exact List.mem_toFinset.2 (Constraint.mem_vars.2 ⟨c, List.mem_reverse.1 hc, hv⟩)

/-- Constraints that double in size whenever a variable is bound. -/
def doubling : List Constraint :=
  [⟨.arrow [.var 3] (.var 3), .arrow [.tuple [.var 2, .var 2]] (.var 4)⟩,
    ⟨.var 2, .tuple [.var 1, .var 1]⟩, ⟨.var 1, .tuple [.var 0, .var 0]⟩]

/-- The search for them takes seven turns and finds an equation for four of the five ids. -/
theorem unify_halts_doubling :
    (Search.start doubling).run 6 = none ∧ (Search.start doubling).run 7 = some (unify doubling) ∧
    ∃ s, unify doubling = .ok s ∧ s.length = 4 ∧
      s.length ≤ (Constraint.vars doubling).toFinset.card ∧
      (Constraint.vars doubling).toFinset.card = 5 := by
  have hok : unify doubling = .ok [⟨1, .tuple [.var 0, .var 0]⟩,
      ⟨2, .tuple [.tuple [.var 0, .var 0], .tuple [.var 0, .var 0]]⟩,
      ⟨3, .tuple [.tuple [.tuple [.var 0, .var 0], .tuple [.var 0, .var 0]],
        .tuple [.tuple [.var 0, .var 0], .tuple [.var 0, .var 0]]]⟩,
      ⟨4, .tuple [.tuple [.tuple [.var 0, .var 0], .tuple [.var 0, .var 0]],
        .tuple [.tuple [.var 0, .var 0], .tuple [.var 0, .var 0]]]⟩] := by
    cbv
  refine ⟨by cbv, ?_, _, hok, rfl, (unify_halts doubling).2.2 _ hok, by decide⟩
  rw [hok]
  cbv

end LetPoly
