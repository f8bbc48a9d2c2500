import LetPoly.Proofs.Loading
import LetPoly.Proofs.Reading

/-!
# Legible expressions

The text of an expression holds all of it but its slots, if its names can be told from keywords and
numbers and no part of it is written like another kind: an application has arguments, a tuple has
two components, and a sign in front of a number belongs to the number.

An expression may stand at places of every strength, so reading is shown for all of them at once.
At the place of its own strength this is by the parts of the expression. At a weaker place nothing
is written differently, and the reader passes through; at a stronger one there are round brackets.
An operator that groups to the left needs more than this of what is on its left: there the reader
does not stop, but goes on with the chain.

## Main definitions

* `Expr.Starts`, `Expr.Follow`: how an expression may start, and what cannot go on with it.
* `Expr.Reads`, `Expr.Chains`, `Expr.Readable`: the reader reads what is written at a place.
* `Expr.Legible`: the trees that can be read back.
* `Expr.bare`: the tree with empty slots.

## Main results

* `Expr.Reads.everywhere`: what is read at the place of its own strength is read at all places.
* `Expr.Legible.read_tokens`: a legible tree is read back with empty slots.
* `Expr.render_eq_render_iff`: two legible trees have the same text if and only if they differ at
  most in their slots.
-/

namespace LetPoly.Expr

open Text

/-! ### Seams -/

/-- The tokens start as an expression at a place of the given strength may start. -/
def Starts (s : Strength) (ts : List Token) : Prop :=
  ∃ t rest, ts = t :: rest ∧ ∃ k ∈ t.opens?, s ≤ k

/-- The tokens cannot go on with an expression at a place of the given strength. -/
def Follow (s : Strength) (ts : List Token) : Prop :=
  ∀ t ∈ ts.head?, ∀ r ∈ t.binds?, r < s

variable {s s' : Strength} {t : Token} {ts K K' : List Token} {e : Expr} {n : Nat}

theorem Starts.append (h : Starts s ts) (K : List Token) : Starts s (ts ++ K) := by
  obtain ⟨t, rest, rfl, hk⟩ := h
  exact ⟨t, rest ++ K, rfl, hk⟩

theorem Starts.mono (h : Starts s ts) (hs : s' ≤ s) : Starts s' ts := by
  obtain ⟨t, rest, rfl, k, hk, hle⟩ := h
  exact ⟨t, rest, rfl, k, hk, hs.trans hle⟩

theorem starts_cons : Starts s (t :: ts) ↔ ∃ k ∈ t.opens?, s ≤ k :=
  ⟨fun ⟨_, _, heq, h⟩ => (List.cons.inj heq).1 ▸ h, fun h => ⟨t, ts, rfl, h⟩⟩

theorem not_starts {k : Strength} (ht : t.opens? = some k) (hk : k < s) : ¬Starts s (t :: ts) := by
  rw [starts_cons, ht]
  rintro ⟨_, ⟨⟩, hle⟩
  exact Nat.not_lt.2 hle hk

theorem Follow.mono (h : Follow s ts) (hs : s ≤ s') : Follow s' ts :=
  fun t ht r hr => (h t ht r hr).trans_le hs

theorem follow_cons : Follow s (t :: ts) ↔ ∀ r ∈ t.binds?, r < s := by
  simp only [Follow, List.head?_cons, Option.mem_some_iff, forall_eq']

theorem follow_of_binds (h : t.binds? = none) : Follow s (t :: ts) := by
  rw [follow_cons, h]
  exact fun r hr => nomatch hr

/-! ### One step of the reader -/

theorem read_loose : read (n + 1) Strength.loose ts = readLoose n ts := by
  rw [read, if_pos rfl]

theorem read_compare : read (n + 1) Strength.compare ts =
    (read n Strength.sum ts).bind fun p => readRelation n p.1 p.2 := by
  rw [read]
  rfl

theorem read_application : read (n + 1) Strength.application ts = readOperand n ts := by
  rw [read]
  rfl

theorem read_atom : read (n + 1) Strength.atom ts = readAtom n ts := by
  rw [read]
  rfl

theorem read_chain (hl : Strength.compare < s) (hr : s < Strength.application) :
    read (n + 1) s ts = (read n (s + 1) ts).bind fun p => readMore n s p.1 p.2 := by
  have hloose : s ≠ Strength.loose := Nat.ne_of_gt (Nat.lt_of_le_of_lt (Nat.zero_le _) hl)
  have hproduct : s ≤ Strength.product := Nat.le_of_lt_succ hr
  rw [read, if_neg hloose, if_neg (Nat.ne_of_gt hl), if_pos hproduct]

theorem readRelation_of_follow (h : Follow Strength.compare K) :
    readRelation (n + 1) e K = some (e, K) := by
  rw [readRelation]
  · rintro ts rfl
    exact absurd (follow_cons.1 h _ rfl) (Nat.lt_irrefl _)
  · rintro ts rfl
    exact absurd (follow_cons.1 h _ rfl) (Nat.lt_irrefl _)

/-- Without an operator of this strength there is nothing more. -/
theorem readMore_of_follow (h : Follow s K) : readMore (n + 1) s e K = some (e, K) := by
  cases K with
  | nil => rfl
  | cons t ts =>
    cases t with
    | op o =>
      have hlt : opStrength o < s := follow_cons.1 h _ rfl
      exact if_neg (Nat.ne_of_lt hlt)
    | _ => rfl

theorem readArgs_of_follow (h : Follow Strength.application K) :
    readArgs (n + 1) K = some ([], K) := by
  have hhead : K.head?.any Token.opensAtom = false := by
    cases K with
    | nil => rfl
    | cons t ts =>
      rw [follow_cons] at h
      cases t with
      | keyword k => cases k <;> first | rfl | exact absurd (h _ rfl) (Nat.lt_irrefl _)
      | op o => cases o <;> rfl
      | name | number | lparen => exact absurd (h _ rfl) (Nat.lt_irrefl _)
      | _ => rfl
  rw [readArgs, hhead, if_neg Bool.false_ne_true]

theorem readLoose_of_starts (h : Starts Strength.compare ts) :
    readLoose (n + 1) ts = read n Strength.compare ts := by
  rw [readLoose]
  all_goals
    intros
    subst_vars
    exact absurd h (not_starts rfl Nat.one_pos)

theorem readOperand_of_starts (h : Starts Strength.atom ts) :
    readOperand (n + 1) ts =
      (read n Strength.atom ts).bind fun p => (readArgs n p.2).map fun q =>
        (if q.1.isEmpty then p.1 else .app p.1 q.1 .absent, q.2) := by
  rw [readOperand]
  all_goals
    intros
    subst_vars
    exact absurd h (not_starts rfl (Nat.lt_succ_self _))

theorem readAtom_lparen (h : Starts Strength.loose ts) :
    readAtom (n + 1) (.lparen :: ts) =
      (read n Strength.loose ts).bind fun p => (readElems n p.2).map fun q =>
        (if q.1.isEmpty then p.1 else .tuple (p.1 :: q.1), q.2) := by
  rw [readAtom]
  rintro rest rfl
  obtain ⟨k, hk, -⟩ := starts_cons.1 h
  cases hk

/-! ### Reading at a place -/

/-- The tree with all slots empty. -/
def bare (e : Expr) : Expr :=
  e.mapSlots fun _ => .absent

/-- What is written at a place of the given strength is read there. -/
def Reads (s : Strength) (e : Expr) : Prop :=
  ∀ K, Follow s K → Settles (fun n => read n s (e.tokensAt s ++ K)) (e.bare, K)

/-- What is written at a place of the given strength is the left side of what comes after it. -/
def Chains (s : Strength) (e : Expr) : Prop :=
  ∀ K p, Follow (s + 1) K → Settles (fun n => readMore n s e.bare K) p →
    Settles (fun n => read n s (e.tokensAt s ++ K)) p

theorem Chains.reads (h : Chains s e) : Reads s e := fun K hK =>
  h K _ (hK.mono (Nat.le_succ s)) ((Settles.const _).step fun _ => readMore_of_follow hK)

theorem Reads.chains (hl : Strength.compare < s) (hr : s < Strength.application)
    (hne : e.strength ≠ s) (h : Reads (s + 1) e) : Chains s e := fun K _ hK hmore =>
  ((h K hK).bind (r := fun n p => readMore n s p.1 p.2) hmore).step fun n => by
    rw [read_chain hl hr, tokensAt_succ hne]

theorem startsAt (h : Starts e.strength e.tokens) (hs : s ≤ Strength.atom) :
    Starts s (e.tokensAt s) := by
  by_cases hlt : e.strength < s
  · rw [tokensAt_of_lt hlt]
    exact starts_cons.2 ⟨_, rfl, hs⟩
  · rw [tokensAt_of_le (Nat.not_lt.1 hlt)]
    exact h.mono (Nat.not_lt.1 hlt)

theorem Reads.loose (hstart : Starts e.strength e.tokens) (hne : e.strength ≠ Strength.loose)
    (h : Reads Strength.compare e) : Reads Strength.loose e := fun K hK => by
  have hcompare : Starts Strength.compare (e.tokensAt Strength.compare ++ K) :=
    (startsAt hstart (by decide)).append K
  have hread : Settles (fun n => readLoose n (e.tokensAt Strength.compare ++ K)) (e.bare, K) :=
    (h K (hK.mono (Nat.zero_le _))).step fun _ => readLoose_of_starts hcompare
  rw [← tokensAt_succ hne]
  exact hread.step fun _ => read_loose

theorem Reads.compare (hne : e.strength ≠ Strength.compare) (h : Reads Strength.sum e) :
    Reads Strength.compare e := fun K hK => by
  have hend : Settles (fun n => readRelation n e.bare K) (e.bare, K) :=
    (Settles.const _).step fun _ => readRelation_of_follow hK
  rw [← tokensAt_succ hne]
  exact ((h K (hK.mono (by decide))).bind (r := fun n p => readRelation n p.1 p.2) hend).step
    fun _ => read_compare

/-- An atom, and the arguments after it. -/
theorem settles_application {fn : Expr} {args : List Expr} (hstart : Starts Strength.atom ts)
    (hfn : Settles (fun n => read n Strength.atom ts) (fn, K))
    (hargs : Settles (fun n => readArgs n K) (args, K')) :
    Settles (fun n => read n Strength.application ts)
      (if args.isEmpty then fn else .app fn args .absent, K') :=
  have hoperand := (hfn.bind (r := fun n p => (readArgs n p.2).map fun q =>
    (if q.1.isEmpty then p.1 else .app p.1 q.1 .absent, q.2)) hargs.map).step
      fun _ => readOperand_of_starts hstart
  hoperand.step fun _ => read_application

theorem Reads.application (hstart : Starts e.strength e.tokens)
    (hne : e.strength ≠ Strength.application) (h : Reads Strength.atom e) :
    Reads Strength.application e := fun K hK => by
  have hargs : Settles (fun n => readArgs n K) ([], K) :=
    (Settles.const _).step fun _ => readArgs_of_follow hK
  rw [← tokensAt_succ hne]
  exact settles_application ((startsAt hstart le_rfl).append K)
    (h K (hK.mono (by decide))) hargs

/-- An expression of another strength is read alike at a place and at the next stronger one. -/
theorem Reads.pred (hstart : Starts e.strength e.tokens) (hs : s < Strength.atom)
    (hne : e.strength ≠ s) (h : Reads (s + 1) e) : Reads s e :=
  match s, hs with
  | 0, _ => h.loose hstart hne
  | 1, _ => h.compare hne
  | 2, _ | 3, _ => (h.chains (by decide) (by decide) hne).reads
  | 4, _ => h.application hstart hne

/-- An expression in round brackets, and the components after it. -/
theorem settles_bracket {x : Expr} {es : List Expr} (hstart : Starts Strength.loose ts)
    (hx : Settles (fun n => read n Strength.loose ts) (x, K))
    (hes : Settles (fun n => readElems n K) (es, K')) :
    Settles (fun n => read n Strength.atom (.lparen :: ts))
      (if es.isEmpty then x else .tuple (x :: es), K') :=
  have hatom := (hx.bind (r := fun n p => (readElems n p.2).map fun q =>
    (if q.1.isEmpty then p.1 else .tuple (p.1 :: q.1), q.2)) hes.map).step
      fun _ => readAtom_lparen hstart
  hatom.step fun _ => read_atom

/-- Round brackets make an atom of an expression. -/
theorem Reads.wrap (hstart : Starts e.strength e.tokens) (hlt : e.strength < Strength.atom)
    (h : Reads Strength.loose e) : Reads Strength.atom e := fun K hK => by
  have hread := h (.rparen :: K) (follow_of_binds rfl)
  rw [tokensAt_loose] at hread
  rw [tokensAt_of_lt hlt, List.cons_append, List.append_assoc, List.singleton_append]
  exact settles_bracket ((hstart.append _).mono (Nat.zero_le _)) hread
    ((Settles.const _).step fun _ => rfl)

/-! ### Reading at every place -/

/-- What is written anywhere is read there. -/
structure Readable (e : Expr) : Prop where
  starts : Starts e.strength e.tokens
  reads : ∀ s ≤ Strength.atom, Reads s e
  chains : ∀ s, Strength.compare < s → s < Strength.application → Chains s e

theorem strength_le_atom (e : Expr) : e.strength ≤ Strength.atom := by
  cases e with
  | arith op l r => cases op <;> exact Nat.le_of_ble_eq_true rfl
  | int n =>
    rw [strength]
    split <;> exact Nat.le_of_ble_eq_true rfl
  | _ => exact Nat.le_of_ble_eq_true rfl

/-- The place of an expression's own strength decides: below it nothing changes, and above it there
are round brackets. -/
theorem Reads.everywhere (hstart : Starts e.strength e.tokens) (h : Reads e.strength e) :
    ∀ s ≤ Strength.atom, Reads s e := by
  have hbelow : ∀ s ≤ e.strength, Reads s e := fun s hs =>
    Nat.decreasingInduction (motive := fun s _ => Reads s e)
      (fun k hk hsucc =>
        hsucc.pred hstart (hk.trans_le (strength_le_atom e)) (Nat.ne_of_gt hk)) h hs
  intro s hs
  by_cases hle : s ≤ e.strength
  · exact hbelow s hle
  · -- from the loosest place to the tightest one by brackets, and down from there
    have hlt : e.strength < s := Nat.not_le.1 hle
    have hatom : Reads Strength.atom e :=
      (hbelow _ (Nat.zero_le _)).wrap hstart (hlt.trans_le hs)
    exact Nat.decreasingInduction (motive := fun s _ => e.strength < s → Reads s e)
      (fun k hk hsucc hlt => (hsucc (hlt.trans k.lt_succ_self)).pred hstart hk (Nat.ne_of_lt hlt))
      (fun _ => hatom) hs hlt

section Own

variable {k : Strength} (hk : e.strength = k) (hstart : Starts k e.tokens)
include hk hstart

theorem Readable.of_chains
    (h : ∀ K p, Follow (k + 1) K → Settles (fun n => readMore n k e.bare K) p →
      Settles (fun n => read n k (e.tokens ++ K)) p) : Readable e := by
  subst hk
  rw [← tokensAt_of_le (le_refl e.strength)] at h
  have hreads := (show Chains e.strength e from h).reads.everywhere hstart
  refine ⟨hstart, hreads, fun s hl hr => ?_⟩
  by_cases hs : e.strength = s
  · exact hs ▸ h
  · exact (hreads (s + 1) (Nat.succ_le_of_lt (hr.trans (by decide)))).chains hl hr hs

theorem Readable.of_reads (hs : k ≤ Strength.compare ∨ Strength.application ≤ k)
    (h : ∀ K, Follow k K → Settles (fun n => read n k (e.tokens ++ K)) (e.bare, K)) :
    Readable e := by
  subst hk
  rw [← tokensAt_of_le (le_refl e.strength)] at h
  have hreads := (show Reads e.strength e from h).everywhere hstart
  refine ⟨hstart, hreads, fun s hl hr => ?_⟩
  refine (hreads (s + 1) (Nat.succ_le_of_lt (hr.trans (by decide)))).chains hl hr ?_
  rintro rfl
  rcases hs with hs | hs
  · exact Nat.not_lt.2 hs hl
  · exact Nat.not_lt.2 hs hr

end Own

theorem follow_atom : Follow Strength.atom K := by
  intro t _ r hr
  cases t with
  | keyword k => cases k <;> cases hr <;> exact (by decide)
  | op o => cases o <;> cases hr <;> exact Nat.le_of_ble_eq_true rfl
  | _ => cases hr <;> exact (by decide)

theorem Readable.read_loose (h : Readable e) (hK : Follow Strength.loose K) :
    Settles (fun n => read n Strength.loose (e.tokens ++ K)) (e.bare, K) := by
  rw [← tokensAt_loose]
  exact h.reads _ (by decide) K hK

/-- No token but those that bind can go on with an expression. -/
theorem Readable.read_before (h : Readable e) (ht : t.binds? = none) :
    Settles (fun n => read n Strength.loose (e.tokens ++ t :: ts)) (e.bare, t :: ts) :=
  h.read_loose (follow_of_binds ht)

theorem Readable.read_sum (h : Readable e) (hK : Follow Strength.sum K) :
    Settles (fun n => read n Strength.sum (e.tokensAt Strength.sum ++ K)) (e.bare, K) :=
  h.reads _ (by decide) K hK

theorem Readable.read_atom (h : Readable e) :
    Settles (fun n => read n Strength.atom (e.tokensAt Strength.atom ++ K)) (e.bare, K) :=
  h.reads _ le_rfl K follow_atom

/-! ### The kinds of expressions -/

section Kinds

variable {c x y l r v body rest fn : Expr} {b f : Binding} {es args : List Expr}
  {bs : List Binding}

/-- An expression that is one token. -/
theorem readable_token (hk : e.strength = Strength.atom) (htokens : e.tokens = [t])
    (ht : t.opens? = some Strength.atom) (h : ∀ K n, readAtom (n + 1) (t :: K) = some (e.bare, K)) :
    Readable e := by
  refine .of_reads hk ?_ (.inr (Nat.le_succ _)) fun K _ => ?_
  · rw [htokens]
    exact starts_cons.2 ⟨_, ht, le_rfl⟩
  · rw [htokens]
    exact ((Settles.const _).step (h K)).step fun _ => Expr.read_atom

theorem readable_bool (b : Bool) : Readable (bool b) := by
  refine readable_token rfl (tokens_bool b) ?_ fun K n => ?_
  · cases b <;> rfl
  · cases b <;> rfl

theorem readable_var {x : String} (h : IsName x) : Readable (var x) :=
  readable_token rfl (tokens_var h) rfl fun _ _ => rfl

theorem readable_int (m : Int) : Readable (int m) := by
  by_cases hm : m < 0
  · have htokens := tokens_int_of_neg hm
    have hneg : -((-m).toNat : Int) = m := by omega
    refine .of_reads (if_pos hm) ?_ (.inr le_rfl) fun K _ => ?_
    · rw [htokens]
      exact starts_cons.2 ⟨_, rfl, le_rfl⟩
    · have hoperand : Settles
          (fun n => readOperand n (.op .sub :: .number (-m).toNat :: K)) (int m, K) :=
        (Settles.const _).step fun n => by rw [readOperand, hneg]
      rw [htokens]
      exact hoperand.step fun _ => read_application
  · have hcast : (m.toNat : Int) = m := by omega
    refine readable_token (if_neg hm) (tokens_int_of_nonneg (Int.not_lt.1 hm)) rfl fun K n => ?_
    rw [readAtom, hcast]
    rfl

theorem readable_unit : Readable unit := by
  refine .of_reads (k := Strength.atom) rfl (starts_cons.2 ⟨_, rfl, le_rfl⟩) (.inr (Nat.le_succ _))
    fun K _ => ?_
  have hatom : Settles (fun n => readAtom n (.lparen :: .rparen :: K)) (unit, K) :=
    (Settles.const _).step fun _ => rfl
  rw [tokens_unit]
  exact hatom.step fun _ => Expr.read_atom

theorem readable_not (h : Readable x) : Readable (not x) := by
  refine .of_reads (k := Strength.application) rfl ?_ (.inr le_rfl) fun K _ => ?_
  · rw [tokens_not]
    exact starts_cons.2 ⟨_, rfl, le_rfl⟩
  · have hoperand := (h.read_atom (K := K)).map (r := fun p => (not p.1, p.2))
    rw [tokens_not]
    exact (hoperand.step fun _ => rfl).step fun _ => read_application

/-- Only a number starts with a number at the place of an atom. -/
theorem Readable.eq_int (h : Readable x) {m : Nat}
    (hx : x.tokensAt Strength.atom = .number m :: ts) : x = int m := by
  have hread : Settles (fun n => read n Strength.atom (.number m :: ts ++ [])) (int m, ts ++ []) :=
    ((Settles.const _).step (f := fun n => readAtom n _) fun _ => rfl).step fun _ => Expr.read_atom
  have hbare : int m = x.bare := congrArg Prod.fst (hread.unique (hx ▸ h.read_atom))
  cases x with
  | int k => exact hbare.symm
  | _ => cases hbare

theorem readable_neg (hx : ∀ m : Nat, x ≠ int m) (h : Readable x) : Readable (neg x) := by
  refine .of_reads (k := Strength.application) rfl ?_ (.inr le_rfl) fun K _ => ?_
  · rw [tokens_neg]
    exact starts_cons.2 ⟨_, rfl, le_rfl⟩
  · have hoperand := (h.read_atom (K := K)).map (r := fun p => (neg p.1, p.2))
    rw [tokens_neg]
    refine (hoperand.step fun n => ?_).step fun _ => read_application
    -- a number after the sign would be read as one with it
    rw [List.cons_append, readOperand]
    intro m ts hts
    obtain ⟨t, rest, htokens, -⟩ := startsAt h.starts (le_refl Strength.atom)
    rw [htokens] at hts
    cases hts
    exact hx m (h.eq_int htokens)

theorem readable_arith {op : ArithOp} (hop : ∀ c, op ≠ .other c) (hl : Readable l)
    (hr : Readable r) : Readable (arith op l r) := by
  have hlow : Strength.compare < opStrength op := by cases op <;> exact Nat.le_of_ble_eq_true rfl
  have hhigh : opStrength op < Strength.application := by
    cases op <;> exact Nat.le_of_ble_eq_true rfl
  refine .of_chains (k := opStrength op) rfl ?_ fun K p hK hmore => ?_
  · rw [tokens_arith hop]
    exact (startsAt hl.starts (hhigh.le.trans (by decide))).append _
  · have hnext : Follow (opStrength op + 1) (.op op :: (r.tokensAt (opStrength op + 1) ++ K)) :=
      follow_cons.2 fun _ hs => Option.mem_some.1 hs ▸ Nat.lt_succ_self _
    have hread := hr.reads (opStrength op + 1) (Nat.succ_le_of_lt (hhigh.trans (by decide))) K hK
    have hgo := hread.bind (r := fun n q => readMore n _ (.arith op l.bare q.1) q.2) hmore
    rw [tokens_arith hop, List.append_assoc, List.cons_append]
    -- the left side may be a chain of the same strength, so its own reading does not stop here
    exact hl.chains _ hlow hhigh _ p hnext (hgo.step fun n => by rw [readMore, if_pos rfl])

/-- A comparison, whatever its sign: after the left side the reader finds the sign, and makes the
comparison with what comes after it. -/
theorem readable_relation (sign : List Token) (make : Expr → Expr)
    (hk : e.strength = Strength.compare)
    (htokens : e.tokens = l.tokensAt Strength.sum ++ (sign ++ r.tokensAt Strength.sum))
    (hsign : ∀ K, Follow Strength.sum (sign ++ K))
    (hread : ∀ K n, readRelation (n + 1) l.bare (sign ++ K) =
      (read n Strength.sum K).map fun p => (make p.1, p.2))
    (hbare : e.bare = make r.bare) (hl : Readable l) (hr : Readable r) : Readable e := by
  refine .of_reads hk ?_ (.inl le_rfl) fun K hK => ?_
  · rw [htokens]
    exact ((startsAt hl.starts (by decide)).append _).mono (Nat.le_succ _)
  · have hright := (hr.read_sum (hK.mono (Nat.le_succ _))).map (r := fun p => (make p.1, p.2))
    have hgo := (hl.read_sum (hsign _)).bind (r := fun n p => readRelation n p.1 p.2)
      (hright.step (hread _))
    rw [htokens, List.append_assoc, List.append_assoc, hbare]
    exact hgo.step fun _ => read_compare

theorem readable_eq (hl : Readable l) (hr : Readable r) : Readable (eq l r) :=
  readable_relation [.equals] (eq l.bare) rfl (tokens_eq l r)
    (fun _ => follow_cons.2 fun _ hs => Option.mem_some.1 hs ▸ Nat.lt_succ_self _)
    (fun _ _ => rfl) rfl hl hr

theorem readable_le (hl : Readable l) (hr : Readable r) : Readable (le l r) :=
  readable_relation [.less, .equals] (le l.bare) rfl (tokens_le l r)
    (fun _ => follow_cons.2 fun _ hs => Option.mem_some.1 hs ▸ Nat.lt_succ_self _)
    (fun _ _ => rfl) rfl hl hr

/-- A binding or a conditional: its first word tells the reader which one it is. -/
theorem Readable.of_loose (hk : e.strength = Strength.loose) (htokens : e.tokens = t :: ts)
    (ht : t.opens? = some Strength.loose)
    (h : ∀ K, Follow Strength.loose K →
      Settles (fun n => readLoose n (t :: (ts ++ K))) (e.bare, K)) : Readable e := by
  refine .of_reads hk ?_ (.inl (Nat.zero_le _)) fun K hK => ?_
  · rw [htokens]
    exact starts_cons.2 ⟨_, ht, le_rfl⟩
  · rw [htokens]
    exact (h K hK).step fun _ => Expr.read_loose

theorem readable_ite (hc : Readable c) (hx : Readable x) (hy : Readable y) :
    Readable (ite c x y) := by
  refine .of_loose rfl (tokens_ite c x y) rfl fun K hK => .of_succ ?_
  simp only [List.append_assoc, List.cons_append, readLoose]
  exact (hc.read_before rfl).bind ((hx.read_before rfl).bind (hy.read_loose hK).map)

/-- The value of a binding, and the expression that it is for. -/
theorem settles_scope (hv : Readable v) (hbody : Readable body) (hK : Follow Strength.loose K) :
    Settles (fun n => readScope n (.equals :: (v.tokens ++ .keyword .inWord :: (body.tokens ++ K))))
      ((v.bare, body.bare), K) := by
  refine .of_succ ?_
  simp only [readScope]
  exact (hv.read_before rfl).bind (hbody.read_loose hK).map

theorem mapSlot_absent (b : Binding) : b.mapSlot (fun _ => .absent) = ⟨b.name, .absent⟩ := by
  rw [Binding.mapSlot]
  split
  · next h =>
    obtain ⟨name, slot⟩ := b
    cases slot with
    | absent => rfl
    | _ => cases h
  · rfl

theorem readable_letIn (hb : IsName b.name) (hv : Readable v) (hbody : Readable body) :
    Readable (letIn b v body) := by
  refine .of_loose rfl (tokens_letIn hb v body) rfl fun K hK => .of_succ ?_
  simp only [List.append_assoc, List.cons_append, readLoose]
  rw [bare, mapSlots, mapSlot_absent]
  exact (settles_scope hv hbody hK).map

theorem readNames_flatMap (bs : List Binding) :
    readNames ((bs.flatMap fun b => [.name b.name]) ++ .equals :: K) =
      (bs.map (·.name), .equals :: K) := by
  induction bs with
  | nil => rfl
  | cons b bs ih =>
    rw [List.flatMap_cons, List.singleton_append, List.cons_append, readNames, ih]
    rfl

theorem readMoreNames_flatMap (bs : List Binding) :
    readMoreNames ((bs.flatMap fun b => [.comma] ++ [.name b.name]) ++ .rparen :: K) =
      some (bs.map (·.name), K) := by
  induction bs with
  | nil => rfl
  | cons b bs ih =>
    rw [List.flatMap_cons, List.append_assoc, List.append_assoc, List.singleton_append,
      List.singleton_append, readMoreNames, ih]
    rfl

theorem map_mapSlot_absent (bs : List Binding) :
    bs.map (·.mapSlot fun _ => .absent) = (bs.map (·.name)).map (⟨·, .absent⟩) := by
  rw [List.map_map]
  exact List.map_congr_left fun b _ => mapSlot_absent b

theorem readable_letRec (hbs : ∀ b ∈ f :: bs, IsName b.name) (hbody : Readable body)
    (hrest : Readable rest) : Readable (letRec f bs body rest) := by
  refine .of_loose rfl (tokens_letRec hbs body rest) rfl fun K hK => .of_succ ?_
  simp only [List.append_assoc, List.cons_append, readLoose, readNames_flatMap]
  rw [bare, mapSlots, mapSlot_absent, map_mapSlot_absent]
  exact (settles_scope hbody hrest hK).map

theorem readTupleNames_intercalate (hbs : ∀ b ∈ bs, IsName b.name) :
    readTupleNames (script.tokens (", ".intercalate (bs.map (·.name))) ++ .rparen :: K) =
      some (bs.map (·.name), K) := by
  cases bs with
  | nil => rfl
  | cons b bs =>
    rw [List.forall_mem_cons] at hbs
    have htokens : script.tokens (", ".intercalate ((b :: bs).map (·.name))) =
        .name b.name :: bs.flatMap fun c => [.comma] ++ [.name c.name] := by
      rw [List.map_cons, Script.tokens_intercalate (by rfl) (by rfl), hbs.1.tokens,
        ← flatMap_tokens hbs.2]
      rfl
    rw [htokens, List.cons_append, readTupleNames, readMoreNames_flatMap]
    rfl

theorem readable_letTuple (hbs : ∀ b ∈ bs, IsName b.name) (hv : Readable v)
    (hbody : Readable body) : Readable (letTuple bs v body) := by
  refine .of_loose rfl (tokens_letTuple bs v body) rfl fun K hK => .of_succ ?_
  simp only [List.append_assoc, List.cons_append, readLoose, readTupleNames_intercalate hbs,
    Option.bind_some]
  rw [bare, mapSlots, map_mapSlot_absent]
  exact (settles_scope hv hbody hK).map

theorem head_any_opensAtom (h : Starts Strength.atom ts) :
    ts.head?.any Token.opensAtom = true := by
  obtain ⟨t, rest, rfl, k, hk, hle⟩ := h
  rw [List.head?_cons, Option.any_some, Token.opensAtom, Option.mem_def.1 hk, Option.any_some]
  exact decide_eq_true hle

theorem settles_args (h : ∀ a ∈ args, Readable a) (hK : Follow Strength.application K) :
    Settles (fun n => readArgs n (args.flatMap (tokensAt Strength.atom) ++ K))
      (args.map bare, K) := by
  induction args with
  | nil => exact (Settles.const _).step fun _ => readArgs_of_follow hK
  | cons a args ih =>
    rw [List.forall_mem_cons] at h
    have hstart := (startsAt h.1.starts (le_refl Strength.atom)).append
      (args.flatMap (tokensAt Strength.atom) ++ K)
    refine .of_succ ?_
    simp only [List.flatMap_cons, List.append_assoc, readArgs, head_any_opensAtom hstart, if_true]
    exact h.1.read_atom.bind (ih h.2).map

theorem bare_app (t : Ty) : (app fn args t).bare = .app fn.bare (args.map bare) .absent := by
  rw [bare, mapSlots, mapSlotsAll_eq_map]
  cases t <;> rfl

theorem readable_app (hfn : Readable fn) (hne : args ≠ []) (h : ∀ a ∈ args, Readable a) (t : Ty) :
    Readable (app fn args t) := by
  have hstart := startsAt hfn.starts (le_refl Strength.atom)
  have hbare : (args.map bare).isEmpty = false := by
    rwa [List.isEmpty_eq_false_iff, ne_eq, List.map_eq_nil_iff]
  refine .of_reads (k := Strength.application) rfl ?_ (.inr le_rfl) fun K hK => ?_
  · rw [tokens_app fn hne]
    exact (hstart.append _).mono (Nat.le_succ _)
  · have hread := settles_application (hstart.append _) hfn.read_atom (settles_args h hK)
    rw [hbare, if_neg Bool.false_ne_true] at hread
    rwa [tokens_app fn hne, List.append_assoc, bare_app]

theorem follow_elems (es : List Expr) :
    Follow Strength.loose ((es.flatMap fun c => .comma :: c.tokens) ++ .rparen :: K) := by
  cases es with
  | nil => exact follow_of_binds rfl
  | cons e es => exact follow_of_binds rfl

theorem settles_elems (h : ∀ c ∈ es, Readable c) :
    Settles (fun n => readElems n ((es.flatMap fun c => .comma :: c.tokens) ++ .rparen :: K))
      (es.map bare, K) := by
  induction es with
  | nil => exact (Settles.const _).step fun _ => rfl
  | cons c es ih =>
    rw [List.forall_mem_cons] at h
    refine .of_succ ?_
    simp only [List.flatMap_cons, List.append_assoc, List.cons_append, readElems]
    exact (h.1.read_loose (follow_elems es)).bind (ih h.2).map

theorem bare_tuple : (tuple es).bare = tuple (es.map bare) := by
  rw [bare, mapSlots, mapSlotsAll_eq_map]
  rfl

theorem readable_tuple (hlen : 2 ≤ es.length) (h : ∀ c ∈ es, Readable c) :
    Readable (tuple es) := by
  match es, hlen with
  | e :: c :: es, _ =>
    rw [List.forall_mem_cons] at h
    refine .of_reads (k := Strength.atom) rfl ?_ (.inr (Nat.le_succ _)) fun K _ => ?_
    · rw [tokens_tuple]
      exact starts_cons.2 ⟨_, rfl, le_rfl⟩
    · rw [tokens_tuple, List.cons_append, List.append_assoc, List.append_assoc,
        List.singleton_append, bare_tuple]
      exact settles_bracket ((h.1.starts.append _).mono (Nat.zero_le _))
        (h.1.read_loose (follow_elems (c :: es))) (settles_elems h.2)

end Kinds

/-! ### Whole trees -/

/-- What a node asks for to be read back: names that can be read, a known operator, an argument for
each application, two components for each tuple, and no sign in front of a number but its own. -/
def Spelled : Expr → Prop
  | .var x => IsName x
  | .neg (.int n) => n < 0
  | .arith op _ _ => ∀ c, op ≠ .other c
  | .letIn b _ _ => IsName b.name
  | .letRec f args _ _ => ∀ b ∈ f :: args, IsName b.name
  | .app _ args _ => args ≠ []
  | .tuple es => 2 ≤ es.length
  | .letTuple bs _ _ => ∀ b ∈ bs, IsName b.name
  | _ => True

/-- No node is missing or foreign, and each is spelled in a way that can be read. -/
structure Legible (e : Expr) : Prop where
  whole : e.Whole
  spelled : e.Everywhere Spelled

theorem Legible.node (hroot : e.isAbsent = false) (hkind : e.foreign? = none) (h : e.Spelled)
    (hchildren : ∀ c ∈ e.children, c.Legible) : e.Legible :=
  ⟨.node hroot hkind fun c hc => (hchildren c hc).whole,
    (everywhere_iff hroot).2 ⟨h, fun c hc => (hchildren c hc).spelled⟩⟩

theorem Spelled.neg {x : Expr} (h : (neg x).Spelled) (n : Nat) : x ≠ int n := by
  rintro rfl
  exact absurd h (Int.not_lt.2 (Int.natCast_nonneg n))

theorem Legible.readable (h : e.Legible) : Readable e := by
  obtain ⟨hwhole, hspelled⟩ := h
  induction hwhole with
  | @node e hroot hkind _ ih =>
    obtain ⟨hown, hbelow⟩ := (everywhere_iff hroot).1 hspelled
    have ih : ∀ c ∈ e.children, Readable c := fun c hc => ih c hc (hbelow c hc)
    cases e with
    | absent => cases hroot
    | foreign kind => cases hkind
    | unit => exact readable_unit
    | bool b => exact readable_bool b
    | int n => exact readable_int n
    | var x => exact readable_var hown
    | not x => exact readable_not (List.forall_mem_singleton.1 ih)
    | neg x => exact readable_neg (Spelled.neg hown) (List.forall_mem_singleton.1 ih)
    | arith op l r =>
      rw [children, List.forall_mem_cons, List.forall_mem_singleton] at ih
      exact readable_arith hown ih.1 ih.2
    | eq l r =>
      rw [children, List.forall_mem_cons, List.forall_mem_singleton] at ih
      exact readable_eq ih.1 ih.2
    | le l r =>
      rw [children, List.forall_mem_cons, List.forall_mem_singleton] at ih
      exact readable_le ih.1 ih.2
    | ite c x y =>
      rw [children, List.forall_mem_cons, List.forall_mem_cons, List.forall_mem_singleton] at ih
      exact readable_ite ih.1 ih.2.1 ih.2.2
    | letIn b v body =>
      rw [children, List.forall_mem_cons, List.forall_mem_singleton] at ih
      exact readable_letIn hown ih.1 ih.2
    | letRec f args body rest =>
      rw [children, List.forall_mem_cons, List.forall_mem_singleton] at ih
      exact readable_letRec hown ih.1 ih.2
    | app fn args t =>
      rw [children, List.forall_mem_cons] at ih
      exact readable_app ih.1 hown ih.2 t
    | tuple es => exact readable_tuple hown ih
    | letTuple bs v body =>
      rw [children, List.forall_mem_cons, List.forall_mem_singleton] at ih
      exact readable_letTuple hown ih.1 ih.2

/-- The text of a legible tree is read as the tree with empty slots. -/
theorem Legible.read_tokens (h : e.Legible) :
    Settles (fun n => read n Strength.loose e.tokens) (e.bare, []) := by
  have hread := h.readable.read_loose (K := []) (fun t ht => nomatch ht)
  rwa [List.append_nil] at hread

/-! ### What the text says -/

/-- Emptying the slots changes nothing else. -/
theorem fills_bare (e : Expr) : Fills (fun _ _ _ => True) e e.bare := by
  have hb (kind : SlotKind) (b : Binding) :
      b.Fills (fun _ _ _ => True) kind (b.mapSlot fun _ => .absent) :=
    ⟨by rw [mapSlot_absent], trivial⟩
  have hbs (kind : SlotKind) (bs : List Binding) :
      List.Forall₂ (Binding.Fills (fun _ _ _ => True) kind) bs
        (bs.map (·.mapSlot fun _ => .absent)) :=
    List.forall₂_map_right_iff.2 (List.forall₂_same.2 fun b _ => hb kind b)
  induction e using Expr.ind with
  | node e ih =>
    cases e with
    | letIn b v body =>
      exact .letIn (hb _ b) (ih v (by simp [children])) (ih body (by simp [children]))
    | letRec f args body rest =>
      exact .letRec (hb _ f) (hbs _ args) (ih body (by simp [children]))
        (ih rest (by simp [children]))
    | app fn args t =>
      obtain ⟨hfn, hargs⟩ := List.forall_mem_cons.1 ih
      rw [bare_app]
      exact .app hfn (List.forall₂_map_right_iff.2 (List.forall₂_same.2 hargs)) trivial
    | tuple es =>
      rw [bare_tuple]
      exact .tuple (List.forall₂_map_right_iff.2 (List.forall₂_same.2 ih))
    | letTuple bs v body =>
      exact .letTuple (hbs _ bs) (ih v (by simp [children])) (ih body (by simp [children]))
    | _ => constructor <;> exact ih _ (by simp [children])

/-- **The text is the tree.** Two legible trees have the same text if and only if they are the same
but for what is in their slots. -/
theorem render_eq_render_iff {e e' : Expr} (h : e.Legible) (h' : e'.Legible) :
    e.render = e'.render ↔ e.bare = e'.bare := by
  constructor
  · intro heq
    have htokens : e.tokens = e'.tokens := congrArg script.tokens heq
    have hread := h.read_tokens
    rw [htokens] at hread
    exact congrArg Prod.fst (hread.unique h'.read_tokens)
  · intro hbare
    calc e.render = e.bare.render := (fills_bare e).render.symm
      _ = e'.bare.render := by rw [hbare]
      _ = e'.render := (fills_bare e').render

/-- `let f = -(-1) in f (1 - (x - 2))`, with the given types in its slots. -/
def negated (t u : Ty) : Expr :=
  letIn ⟨"f", t⟩ (neg (int (-1)))
    (app (var "f") [arith .sub (int 1) (arith .sub (var "x") (int 2))] u)

theorem legible_negated (t u : Ty) : (negated t u).Legible := by
  have hname (x : String) (hx : x = "f" ∨ x = "x") : IsName x := by
    rcases hx with rfl | rfl <;> exact .of_alphanum (by decide) rfl rfl rfl
  have hint (n : Int) : (int n).Legible := .node rfl rfl trivial (fun _ hc => nomatch hc)
  have hvar (x : String) (hx : x = "f" ∨ x = "x") : (var x).Legible :=
    .node rfl rfl (hname x hx) (fun _ hc => nomatch hc)
  have hsub (l r : Expr) (hl : l.Legible) (hr : r.Legible) : (arith .sub l r).Legible :=
    .node rfl rfl (fun _ => nofun) (by simp [children, hl, hr])
  have hneg : (neg (int (-1))).Legible :=
    .node rfl rfl (show (-1 : Int) < 0 by decide) (by simp [children, hint])
  have harg := hsub _ _ (hint 1) (hsub _ _ (hvar "x" (.inr rfl)) (hint 2))
  have hcall (a : Expr) (ha : a.Legible) : (app (var "f") [a] u).Legible :=
    .node rfl rfl (List.cons_ne_nil _ _) (by simp [children, hvar, ha])
  exact .node rfl rfl (hname "f" (.inl rfl)) (by simp [negated, children, hneg, hcall _ harg])

theorem render_eq_render_iff_negated :
    (negated .int (.var 7)).Legible ∧ (negated .absent .bool).Legible ∧
      (negated .int (.var 7)).bare = (negated .absent .bool).bare :=
  ⟨legible_negated _ _, legible_negated _ _,
    (render_eq_render_iff (legible_negated _ _) (legible_negated _ _)).1 (by rfl)⟩

end LetPoly.Expr
