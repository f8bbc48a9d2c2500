import LetPoly.Proofs.Lexemes
import LetPoly.Proofs.Loading
import LetPoly.Proofs.Reports

/-!
# Reading types back

The text of a type holds all of it, except that no arguments are written like an empty tuple as the
only argument. Round brackets mean several things: an empty tuple, a tuple with one component, a
list of arguments, or only that what is in them belongs together. The last one is told from a tuple
by what is inside, since a component that would need brackets has its own.

What a variable is called is a parameter, so a variable is read as a word, like a constant.

## Main definitions

* `Ty.norm`: the type without an empty tuple as the only argument anywhere in it.
* `Ty.readType`: reads a type, in a limited number of steps.
* `Ty.spell`: the type as it is read, with words for its variables.
* `Ty.IsVarName`: what a variable may be called.

## Main results

* `Ty.tokensAt_component`, `Ty.tokensAt_argument`: what the places of a type do to its text.
* `Ty.Proper.readType_tokens`: the text of a type is read back.
-/

namespace LetPoly.Ty

open Text

/-! ### Types that are written alike -/

/-- The arguments, or none if the only one is the empty tuple. -/
def dropUnit : List Ty → List Ty
  | [.tuple []] => []
  | args => args

mutual

/-- The type without the empty tuple as the only argument of a function type anywhere in it. -/
def norm : Ty → Ty
  | .absent => .absent
  | .const n => .const n
  | .var v => .var v
  | .arrow args ret => .arrow (dropUnit (normAll args)) ret.norm
  | .tuple elems => .tuple (normAll elems)

/-- A list of types, each without the empty tuple as the only argument. -/
def normAll : List Ty → List Ty
  | [] => []
  | t :: ts => t.norm :: normAll ts

end

theorem normAll_eq_map (ts : List Ty) : normAll ts = ts.map norm := by
  induction ts with
  | nil => rfl
  | cons t ts ih => rw [normAll, ih, List.map_cons]

theorem norm_arrow (args : List Ty) (ret : Ty) :
    (arrow args ret).norm = .arrow (dropUnit (args.map norm)) ret.norm := by
  rw [norm, normAll_eq_map]

theorem norm_tuple (elems : List Ty) : (tuple elems).norm = .tuple (elems.map norm) := by
  rw [norm, normAll_eq_map]

theorem dropUnit_of_ne {ts : List Ty} (h : ts ≠ [.tuple []]) : dropUnit ts = ts := by
  rw [dropUnit]
  exact h

/-- What makes no empty tuple and leaves the empty tuple alone may come first. -/
theorem dropUnit_map {f : Ty → Ty} (hf : ∀ t, f t = .tuple [] ↔ t = .tuple []) (ts : List Ty) :
    dropUnit (ts.map f) = (dropUnit ts).map f := by
  by_cases hts : ts = [.tuple []]
  · rw [hts, List.map_singleton, (hf _).2 rfl]
    rfl
  · have hmap : ts.map f ≠ [.tuple []] := by
      intro heq
      obtain ⟨t, rfl, ht⟩ := List.map_eq_singleton_iff.1 heq
      exact hts (by rw [(hf t).1 ht])
    rw [dropUnit_of_ne hts, dropUnit_of_ne hmap]

/-! ### Tokens -/

/-- What a word or a mark means in a type. -/
inductive Token where
  | word (w : String)
  | arrow
  | times
  | comma
  | lparen
  | rparen
  /-- A mark that has no meaning here. -/
  | stray (c : Char)
  deriving DecidableEq

namespace Token

def ofMark : Char → Token
  | '(' => .lparen
  | ')' => .rparen
  | ',' => .comma
  | '*' => .times
  | c => .stray c

def ofLexeme : Lexeme → Token
  | .word w => if w = "->" then .arrow else .word w
  | .mark c => ofMark c

end Token

/-- How types are written. An arrow is a word, since there are blanks around it. -/
def script : Script Token where
  marks := "(),*".toList
  meaning := Token.ofLexeme

/-! ### The reader

Each function may take a limited number of steps. -/

mutual

/-- Reads a type, and tells whether it needs round brackets nowhere. -/
def readType : Nat → List Token → Option (Ty × Bool × List Token)
  | 0, _ => none
  | n + 1, ts =>
    (readGroup n ts).bind fun
      | (group, _, .arrow :: ts) =>
        (readType n ts).map fun p => (.arrow (dropUnit group) p.1, false, p.2.2)
      | ([t], closed, ts) => some (t, closed, ts)
      | _ => none

/-- Reads what may stand before an arrow: the components of a tuple, an operand, or arguments. -/
def readGroup : Nat → List Token → Option (List Ty × Bool × List Token)
  | 0, _ => none
  | n + 1, ts =>
    (readOperand n ts).bind fun p => (readFactors n p.2).map fun q =>
      (if q.1.isEmpty then p.1 else [.tuple (p.1 ++ q.1)], q.1.isEmpty, q.2)

/-- Reads a word, or types in round brackets. Brackets around one type make a tuple of it, unless
they only hold it together. -/
def readOperand : Nat → List Token → Option (List Ty × List Token)
  | _ + 1, .word w :: ts => some ([.const w], ts)
  | _ + 1, .lparen :: .rparen :: ts => some ([.tuple []], ts)
  | n + 1, .lparen :: ts =>
    (readType n ts).bind fun p => (readRest n p.2.2).map fun q =>
      (if q.1.isEmpty && p.2.1 then [.tuple [p.1]] else p.1 :: q.1, q.2)
  | _, _ => none

/-- Reads operands, each after a star, as long as there are any. -/
def readFactors : Nat → List Token → Option (List Ty × List Token)
  | 0, _ => none
  | n + 1, .times :: ts =>
    (readOperand n ts).bind fun p => (readFactors n p.2).map fun q => (p.1 ++ q.1, q.2)
  | _ + 1, ts => some ([], ts)

/-- Reads types, each after a comma, up to a closing bracket. -/
def readRest : Nat → List Token → Option (List Ty × List Token)
  | n + 1, .comma :: ts =>
    (readType n ts).bind fun p => (readRest n p.2.2).map fun q => (p.1 :: q.1, q.2)
  | _ + 1, .rparen :: ts => some ([], ts)
  | _, _ => none

end

/-! ### The tokens of a type -/

variable (name : Int → String)

/-- The tokens of a type as it is written at a place. -/
def tokensAt (place : Place) (t : Ty) : List Token :=
  script.tokens (t.renderIn name place)

/-- The type needs round brackets nowhere. -/
def isClosed : Ty → Bool
  | .arrow _ _ => false
  | .tuple elems => decide (elems.length < 2)
  | _ => true

/-- The type is a function type. -/
def isArrow : Ty → Bool
  | .arrow _ _ => true
  | _ => false

/-- Tuples hold what has no brackets of its own in round brackets. -/
theorem tokensAt_component (t : Ty) :
    t.tokensAt name .component =
      if t.isClosed then t.tokensAt name .top
      else .lparen :: (t.tokensAt name .top ++ [.rparen]) := by
  cases t with
  | absent | const | var => rfl
  | arrow args ret =>
    rw [tokensAt, renderIn, Script.tokens_parenthesizeIf rfl rfl]
    rfl
  | tuple elems =>
    rw [tokensAt, tokensAt, renderIn, renderIn, Script.tokens_parenthesizeIf rfl rfl,
      Script.tokens_parenthesizeIf rfl rfl, isClosed]
    by_cases h : elems.length < 2
    · rw [decide_eq_true h]
      rfl
    · rw [decide_eq_false h]
      rfl

/-- An argument alone holds only function types in round brackets. -/
theorem tokensAt_argument (t : Ty) :
    t.tokensAt name .argument =
      if t.isArrow then t.tokensAt name .component else t.tokensAt name .top := by
  cases t <;> rfl

theorem tokens_join {sep : String} (hl : breaksBefore script.marks sep = true)
    (hr : breaksAfter script.marks sep = true) (place : Place) (t : Ty) (ts : List Ty) :
    script.tokens (sep.intercalate (renderAll name place (t :: ts))) = t.tokensAt name place ++
      ts.flatMap fun u => script.tokens sep ++ u.tokensAt name place := by
  rw [renderAll_eq_map, List.map_cons, Script.tokens_intercalate hl hr, List.flatMap_map]
  rfl

theorem tokensAt_pair (x y : Ty) (zs : List Ty) :
    (tuple (x :: y :: zs)).tokensAt name .top = x.tokensAt name .component ++
      (y :: zs).flatMap fun z => .times :: z.tokensAt name .component := by
  have hlen : ¬(x :: y :: zs).length < 2 := by simp
  rw [tokensAt, renderIn, decide_eq_false hlen]
  exact tokens_join name rfl rfl .component x (y :: zs)

theorem tokensAt_empty : (tuple []).tokensAt name .top = [.lparen, .rparen] := by
  rw [tokensAt, renderIn, Script.tokens_parenthesizeIf rfl rfl]
  rfl

theorem tokensAt_single (x : Ty) :
    (tuple [x]).tokensAt name .top = .lparen :: (x.tokensAt name .component ++ [.rparen]) := by
  rw [tokensAt, renderIn, Script.tokens_parenthesizeIf rfl rfl]
  rfl

/-- The text of what stands before the arrow of a function type. -/
def headText (args : List Ty) : String :=
  parenthesizeIf (!(args.length == 1))
    (", ".intercalate (renderAll name (if args.length == 1 then .argument else .top) args))

theorem renderIn_arrow (place : Place) (args : List Ty) (ret : Ty) :
    (arrow args ret).renderIn name place =
      parenthesizeIf (place != .top) (headText name args ++ " -> " ++ ret.renderIn name .top) := by
  rw [renderIn]
  rfl

/-- The tokens of what stands before the arrow of a function type. -/
def headTokens : List Ty → List Token
  | [] => [.lparen, .rparen]
  | [a] => a.tokensAt name .argument
  | a :: b :: rest => .lparen :: (a.tokensAt name .top ++
      (((b :: rest).flatMap fun c => .comma :: c.tokensAt name .top) ++ [.rparen]))

theorem tokens_headText (args : List Ty) :
    script.tokens (headText name args) = headTokens name args := by
  match args with
  | [] =>
    rw [headText, Script.tokens_parenthesizeIf rfl rfl]
    rfl
  | [a] => rfl
  | a :: b :: rest =>
    have hlen : ((a :: b :: rest).length == 1) = false := rfl
    rw [headText, hlen, Bool.not_false, Script.tokens_parenthesizeIf rfl rfl, if_pos rfl,
      if_neg Bool.false_ne_true, tokens_join name rfl rfl, List.append_assoc]
    rfl

theorem tokensAt_arrow (args : List Ty) (ret : Ty) :
    (arrow args ret).tokensAt name .top =
      headTokens name args ++ .arrow :: ret.tokensAt name .top := by
  rw [tokensAt, renderIn_arrow, Script.tokens_parenthesizeIf rfl rfl, if_neg (by decide),
    String.append_assoc, Script.tokens_infix (by rfl) (by rfl), tokens_headText]
  rfl

/-! ### What is read -/

/-- The type that is read: a variable is a word like any other. -/
def spell (t : Ty) : Ty :=
  t.norm.subst fun v => .const (name v)

theorem spell_tuple (elems : List Ty) :
    (tuple elems).spell name = .tuple (elems.map (spell name)) := by
  rw [spell, norm_tuple, subst_tuple, List.map_map]
  rfl

theorem spell_arrow (args : List Ty) (ret : Ty) :
    (arrow args ret).spell name = .arrow (dropUnit (args.map (spell name))) (ret.spell name) := by
  have hunit (t : Ty) : t.subst (fun v => .const (name v)) = .tuple [] ↔ t = .tuple [] := by
    cases t with
    | tuple elems => rw [subst_tuple, tuple.injEq, tuple.injEq, List.map_eq_nil_iff]
    | absent | const | var => exact iff_of_false nofun nofun
    | arrow args ret =>
      rw [subst_arrow]
      exact iff_of_false nofun nofun
  rw [spell, norm_arrow, subst_arrow, ← dropUnit_map hunit, List.map_map]
  rfl

variable {name} {t x y ret : Ty} {ts K : List Token} {args elems zs : List Ty}

/-- What is written at each kind of place is read there. -/
structure Readable (name : Int → String) (t : Ty) : Prop where
  type : ∀ K, K.head? ≠ some .times → K.head? ≠ some .arrow →
    Settles (fun n => readType n (t.tokensAt name .top ++ K)) (t.spell name, t.isClosed, K)
  operand : ∀ K, Settles (fun n => readOperand n (t.tokensAt name .component ++ K))
    ([t.spell name], K)
  group : ∀ K, K.head? ≠ some .times → ∃ closed,
    Settles (fun n => readGroup n (t.tokensAt name .argument ++ K)) ([t.spell name], closed, K)

theorem settles_factors_nil (hK : K.head? ≠ some .times) :
    Settles (fun n => readFactors n K) ([], K) := by
  refine (Settles.const _).step fun n => ?_
  rw [readFactors]
  rintro ts rfl
  exact hK rfl

theorem settles_rest_nil : Settles (fun n => readRest n (.rparen :: K)) ([], K) :=
  (Settles.const _).step fun _ => rfl

theorem settles_group {group rest : List Ty} {L : List Token}
    (h : Settles (fun n => readOperand n ts) (group, L))
    (hrest : Settles (fun n => readFactors n L) (rest, K)) :
    Settles (fun n => readGroup n ts)
      (if rest.isEmpty then group else [.tuple (group ++ rest)], rest.isEmpty, K) :=
  (h.bind (r := fun n p => (readFactors n p.2).map fun q =>
    (if q.1.isEmpty then p.1 else [.tuple (p.1 ++ q.1)], q.1.isEmpty, q.2)) hrest.map).step
      fun _ => rfl

theorem settles_type {closed : Bool} (h : Settles (fun n => readGroup n ts) ([t], closed, K))
    (hK : K.head? ≠ some .arrow) : Settles (fun n => readType n ts) (t, closed, K) := by
  refine .of_succ (h.bind ?_)
  cases K with
  | nil => exact .const _
  | cons k K =>
    cases k with
    | arrow => exact absurd rfl hK
    | _ => exact .const _

/-- Nothing can be read in front of a closing bracket. -/
theorem readType_rparen (n : Nat) : readType n (.rparen :: ts) = none :=
  match n with
  | 0 | 1 | 2 => rfl
  | _ + 3 => rfl

theorem settles_bracket {closed : Bool} {rest : List Ty} {L : List Token}
    (h : Settles (fun n => readType n ts) (t, closed, L))
    (hrest : Settles (fun n => readRest n L) (rest, K)) :
    Settles (fun n => readOperand n (.lparen :: ts))
      (if rest.isEmpty && closed then [.tuple [t]] else t :: rest, K) := by
  refine (h.bind (r := fun n p => (readRest n p.2.2).map fun q =>
    (if q.1.isEmpty && p.2.1 then [.tuple [p.1]] else p.1 :: q.1, q.2)) hrest.map).step
      fun n => ?_
  rw [readOperand]
  rintro ts rfl
  obtain ⟨k, hk⟩ := h
  exact nomatch (readType_rparen k).symm.trans (hk k le_rfl)

/-- Round brackets around what has none of its own hold it together. -/
theorem settles_operand (hopen : t.isClosed = false)
    (h : ∀ K, K.head? ≠ some .times → K.head? ≠ some .arrow →
      Settles (fun n => readType n (t.tokensAt name .top ++ K)) (t.spell name, t.isClosed, K))
    (K : List Token) :
    Settles (fun n => readOperand n (t.tokensAt name .component ++ K)) ([t.spell name], K) := by
  have hread := settles_bracket (h (.rparen :: K) nofun nofun) settles_rest_nil
  rw [hopen] at hread
  rw [tokensAt_component, hopen, if_neg Bool.false_ne_true, List.cons_append, List.append_assoc]
  exact hread

theorem Readable.of_operand (hclosed : t.isClosed = true)
    (h : ∀ K, Settles (fun n => readOperand n (t.tokensAt name .top ++ K)) ([t.spell name], K)) :
    Readable name t where
  type K htimes harrow := by
    rw [hclosed]
    exact settles_type (settles_group (h K) (settles_factors_nil htimes)) harrow
  operand K := by
    rw [tokensAt_component, if_pos hclosed]
    exact h K
  group K htimes := by
    rw [tokensAt_argument, tokensAt_component, if_pos hclosed, ite_self]
    exact ⟨_, settles_group (h K) (settles_factors_nil htimes)⟩

theorem settles_factors (hzs : ∀ z ∈ zs, Readable name z) (hK : K.head? ≠ some .times) :
    Settles (fun n => readFactors n
      ((zs.flatMap fun z => .times :: z.tokensAt name .component) ++ K))
      (zs.map (spell name), K) := by
  induction zs with
  | nil => exact settles_factors_nil hK
  | cons z zs ih =>
    rw [List.forall_mem_cons] at hzs
    refine .of_succ ?_
    simp only [List.flatMap_cons, List.append_assoc, List.cons_append, readFactors]
    exact (hzs.1.operand _).bind (ih hzs.2).map

variable (name K) in
/-- After a component of a list comes a comma or a closing bracket. -/
theorem head_flatMap_comma (zs : List Ty) {s : Token} (hcomma : s ≠ .comma)
    (hclose : s ≠ .rparen) :
    ((zs.flatMap fun z => .comma :: z.tokensAt name .top) ++ .rparen :: K).head? ≠ some s := by
  cases zs with
  | nil => exact fun h => hclose (Option.some.inj h).symm
  | cons z zs => exact fun h => hcomma (Option.some.inj h).symm

theorem settles_rest (hzs : ∀ z ∈ zs, Readable name z) :
    Settles (fun n => readRest n
      ((zs.flatMap fun z => .comma :: z.tokensAt name .top) ++ .rparen :: K))
      (zs.map (spell name), K) := by
  induction zs with
  | nil => exact settles_rest_nil
  | cons z zs ih =>
    rw [List.forall_mem_cons] at hzs
    have hz := hzs.1.type _ (head_flatMap_comma name K zs nofun nofun)
      (head_flatMap_comma name K zs nofun nofun)
    refine .of_succ ?_
    simp only [List.flatMap_cons, List.append_assoc, List.cons_append, readRest]
    exact hz.bind (ih hzs.2).map

/-! ### The kinds of types -/

theorem readable_word {w : String} (hw : script.tokens (t.renderIn name .top) = [.word w])
    (hspell : t.spell name = .const w) (hclosed : t.isClosed = true) : Readable name t := by
  refine .of_operand hclosed fun K => ?_
  rw [tokensAt, hw, hspell]
  exact (Settles.const _).step fun _ => rfl

theorem readable_tuple (helems : ∀ x ∈ elems, Readable name x) : Readable name (tuple elems) := by
  match elems with
  | [] =>
    refine .of_operand rfl fun K => ?_
    rw [tokensAt_empty, spell_tuple]
    exact (Settles.const _).step fun _ => rfl
  | [x] =>
    have hx := List.forall_mem_singleton.1 helems
    refine .of_operand rfl fun K => ?_
    have hgroup := settles_group (hx.operand (.rparen :: K)) (settles_factors_nil nofun)
    rw [tokensAt_single, List.cons_append, List.append_assoc, spell_tuple]
    exact settles_bracket (settles_type hgroup nofun) settles_rest_nil
  | x :: y :: zs =>
    rw [List.forall_mem_cons] at helems
    have hopen : (tuple (x :: y :: zs)).isClosed = false := by simp [isClosed]
    have hgroup (K : List Token) (hK : K.head? ≠ some .times) :
        Settles (fun n => readGroup n ((tuple (x :: y :: zs)).tokensAt name .top ++ K))
          ([(tuple (x :: y :: zs)).spell name], false, K) := by
      rw [tokensAt_pair, List.append_assoc, spell_tuple]
      exact settles_group (helems.1.operand _) (settles_factors helems.2 hK)
    have htype (K : List Token) (htimes : K.head? ≠ some .times)
        (harrow : K.head? ≠ some .arrow) :
        Settles (fun n => readType n ((tuple (x :: y :: zs)).tokensAt name .top ++ K))
          ((tuple (x :: y :: zs)).spell name, (tuple (x :: y :: zs)).isClosed, K) := by
      rw [hopen]
      exact settles_type (hgroup K htimes) harrow
    exact ⟨htype, settles_operand hopen htype, fun K hK => ⟨false, hgroup K hK⟩⟩

/-- No arguments are read as an empty tuple, and dropped with it. -/
theorem settles_headTokens (hargs : ∀ a ∈ args, Readable name a) (K : List Token) :
    ∃ group closed, dropUnit group = dropUnit (args.map (spell name)) ∧
      Settles (fun n => readGroup n (headTokens name args ++ .arrow :: K))
        (group, closed, .arrow :: K) := by
  have hend : Settles (fun n => readFactors n (.arrow :: K)) ([], .arrow :: K) :=
    settles_factors_nil nofun
  match args with
  | [] =>
    have hunit : Settles (fun n => readOperand n (.lparen :: .rparen :: .arrow :: K))
        ([.tuple []], .arrow :: K) := (Settles.const _).step fun _ => rfl
    exact ⟨[.tuple []], true, rfl, settles_group hunit hend⟩
  | [a] =>
    obtain ⟨closed, hgroup⟩ := (List.forall_mem_singleton.1 hargs).group (.arrow :: K) nofun
    exact ⟨_, closed, rfl, hgroup⟩
  | a :: b :: rest =>
    rw [List.forall_mem_cons] at hargs
    have ha := hargs.1.type _ (head_flatMap_comma name (.arrow :: K) (b :: rest) nofun nofun)
      (head_flatMap_comma name (.arrow :: K) (b :: rest) nofun nofun)
    refine ⟨_, true, rfl, ?_⟩
    rw [headTokens, List.cons_append, List.append_assoc, List.append_assoc, List.singleton_append]
    exact settles_group (settles_bracket ha (settles_rest hargs.2)) hend

theorem readable_arrow (hargs : ∀ a ∈ args, Readable name a) (hret : Readable name ret) :
    Readable name (arrow args ret) := by
  have htype (K : List Token) (htimes : K.head? ≠ some .times) (harrow : K.head? ≠ some .arrow) :
      Settles (fun n => readType n ((arrow args ret).tokensAt name .top ++ K))
        ((arrow args ret).spell name, false, K) := by
    obtain ⟨group, closed, hdrop, hgroup⟩ :=
      settles_headTokens hargs (ret.tokensAt name .top ++ K)
    rw [tokensAt_arrow, List.append_assoc, List.cons_append, spell_arrow, ← hdrop]
    exact .of_succ (hgroup.bind (hret.type K htimes harrow).map)
  have hoperand := settles_operand rfl htype
  exact ⟨htype, hoperand, fun K hK =>
    ⟨true, settles_group (hoperand K) (settles_factors_nil hK)⟩⟩

/-! ### Whole types -/

/-- What variables are called: a quote, and no mark or blank after it. -/
def IsVarName (w : String) : Prop :=
  ∃ rest, w.toList = "'".toList ++ rest ∧ ∀ c ∈ rest, isBreak script.marks c = false

theorem IsVarName.ne {w u : String} (h : IsVarName w)
    (hu : u.toList.head? ≠ "'".toList.head?) : w ≠ u := by
  rintro rfl
  obtain ⟨rest, hrest, -⟩ := h
  rw [hrest] at hu
  exact hu rfl

theorem IsVarName.not_mem_builtin {w : String} (h : IsVarName w) : w ∉ builtin := by
  simp only [builtin, List.mem_cons, List.not_mem_nil, or_false, not_or]
  exact ⟨h.ne (by decide), h.ne (by decide), h.ne (by decide)⟩

theorem IsVarName.tokens {w : String} (h : IsVarName w) : script.tokens w = [.word w] := by
  have hword : IsWord script.marks w := by
    refine ⟨h.ne (by decide), ?_⟩
    obtain ⟨rest, hrest, hbreak⟩ := h
    rw [hrest, List.forall_mem_append]
    exact ⟨List.forall_mem_singleton.2 rfl, hbreak⟩
  have hmeaning : Token.ofLexeme (.word w) = .word w := if_neg (h.ne (by decide))
  rw [Script.tokens_word hword, ← hmeaning]
  rfl

theorem Proper.readable (ht : t.Proper) (hname : ∀ v, IsVarName (name v)) : Readable name t := by
  induction ht with
  | @const n hn =>
    refine readable_word (w := n) ?_ rfl rfl
    simp only [builtin, List.mem_cons, List.not_mem_nil, or_false] at hn
    rw [renderIn]
    rcases hn with rfl | rfl | rfl <;> rfl
  | var v =>
    refine readable_word (w := name v) ?_ rfl rfl
    rw [renderIn, (hname v).tokens]
  | arrow _ _ ihargs ihret => exact readable_arrow ihargs ihret
  | tuple _ ih => exact readable_tuple ih

/-- The text of a type is read back. -/
theorem Proper.readType_tokens (ht : t.Proper) (hname : ∀ v, IsVarName (name v)) :
    Settles (fun n => readType n (script.tokens (t.renderIn name .top)))
      (t.spell name, t.isClosed, []) := by
  have hread := (ht.readable hname).type [] nofun nofun
  rwa [List.append_nil] at hread

end LetPoly.Ty
