import LetPoly.Expr.Printer
import LetPoly.Proofs.Lexemes

/-!
# A reader for printed expressions

A printed expression is a list of tokens, and a reader that descends from the loosest place to the
tightest one takes it apart again. Each of its functions may take a limited number of steps, and
what is said of them is which result they give once the limit is high enough.

## Main definitions

* `Token`: the words and marks of expressions.
* `Expr.read`: reads an expression at a place of some strength, in a limited number of steps.
* `Expr.tokens`, `Expr.tokensAt`: the tokens of an expression on its own, and at a place.
* `Expr.IsName`: a word that is read as a name.

## Main results

* `Expr.tokensAt_eq`: a place puts round brackets around weaker expressions and does nothing else.
* `Expr.tokens_arith`, `Expr.tokens_ite`, ...: the tokens of each kind of expression.
-/

namespace LetPoly

open Text

/-! ### Tokens -/

/-- The words that are not names. -/
inductive Keyword where
  | letWord
  | recWord
  | inWord
  | ifWord
  | thenWord
  | elseWord
  | notWord
  | trueWord
  | falseWord
  deriving DecidableEq

/-- The keyword that a word is. -/
def Keyword.ofText? : String → Option Keyword
  | "let" => some .letWord
  | "rec" => some .recWord
  | "in" => some .inWord
  | "if" => some .ifWord
  | "then" => some .thenWord
  | "else" => some .elseWord
  | "not" => some .notWord
  | "true" => some .trueWord
  | "false" => some .falseWord
  | _ => none

/-- What a word or a mark means in an expression. -/
inductive Token where
  | keyword (k : Keyword)
  | name (x : String)
  | number (n : Nat)
  | op (o : ArithOp)
  | lparen
  | rparen
  | comma
  | equals
  | less
  /-- A mark that has no meaning here. -/
  | stray (c : Char)
  deriving DecidableEq

namespace Token

/-- A word that starts with a digit is a number, and any other one is a keyword or a name. -/
def ofWord (w : String) : Token :=
  if w.toList.head?.any Char.isDigit then .number (Nat.ofDigitChars 10 w.toList 0)
  else
    match Keyword.ofText? w with
    | some k => .keyword k
    | none => .name w

def ofMark : Char → Token
  | '(' => .lparen
  | ')' => .rparen
  | ',' => .comma
  | '+' => .op .add
  | '-' => .op .sub
  | '*' => .op .mul
  | '/' => .op .div
  | '=' => .equals
  | '<' => .less
  | c => .stray c

def ofLexeme : Lexeme → Token
  | .word w => ofWord w
  | .mark c => ofMark c

/-- The strongest place that an expression may have that starts with the token. -/
def opens? : Token → Option Expr.Strength
  | .keyword .letWord | .keyword .ifWord => some Expr.Strength.loose
  | .keyword .notWord | .op .sub => some Expr.Strength.application
  | .keyword .trueWord | .keyword .falseWord | .name _ | .number _ | .lparen =>
    some Expr.Strength.atom
  | _ => none

/-- How tightly the token binds what stands before it, if it can go on with an expression. -/
def binds? : Token → Option Expr.Strength
  | .op o => some (Expr.opStrength o)
  | .equals | .less => some Expr.Strength.compare
  | .keyword .trueWord | .keyword .falseWord | .name _ | .number _ | .lparen =>
    some Expr.Strength.application
  | _ => none

/-- The token starts an atom. -/
def opensAtom (t : Token) : Bool :=
  t.opens?.any (Expr.Strength.atom ≤ ·)

end Token

/-! ### The reader -/

namespace Expr

/-- The names at the start, and the rest. -/
def readNames : List Token → List String × List Token
  | .name x :: ts => (x :: (readNames ts).1, (readNames ts).2)
  | ts => ([], ts)

/-- Names after commas, up to a closing bracket. -/
def readMoreNames : List Token → Option (List String × List Token)
  | .comma :: .name x :: ts => (readMoreNames ts).map fun p => (x :: p.1, p.2)
  | .rparen :: ts => some ([], ts)
  | _ => none

/-- Names with commas between them, up to a closing bracket. -/
def readTupleNames : List Token → Option (List String × List Token)
  | .name x :: ts => (readMoreNames ts).map fun p => (x :: p.1, p.2)
  | ts => readMoreNames ts

mutual

/-- Reads an expression at a place of the given strength, as far as it goes. -/
def read : Nat → Strength → List Token → Option (Expr × List Token)
  | 0, _, _ => none
  | n + 1, s, ts =>
    if s = Strength.loose then readLoose n ts
    else if s = Strength.compare then
      (read n Strength.sum ts).bind fun p => readRelation n p.1 p.2
    else if s ≤ Strength.product then (read n (s + 1) ts).bind fun p => readMore n s p.1 p.2
    else if s = Strength.application then readOperand n ts
    else readAtom n ts

/-- Goes on with one comparison after the expression on its left. -/
def readRelation : Nat → Expr → List Token → Option (Expr × List Token)
  | 0, _, _ => none
  | n + 1, l, .equals :: ts => (read n Strength.sum ts).map fun p => (.eq l p.1, p.2)
  | n + 1, l, .less :: .equals :: ts => (read n Strength.sum ts).map fun p => (.le l p.1, p.2)
  | _ + 1, l, ts => some (l, ts)

/-- Goes on with the operators of one strength after the expression on their left. -/
def readMore : Nat → Strength → Expr → List Token → Option (Expr × List Token)
  | 0, _, _, _ => none
  | n + 1, s, l, .op o :: ts =>
    if opStrength o = s then
      (read n (s + 1) ts).bind fun p => readMore n s (.arith o l p.1) p.2
    else some (l, .op o :: ts)
  | _ + 1, _, l, ts => some (l, ts)

/-- Reads a binding or a conditional, or a comparison. -/
def readLoose : Nat → List Token → Option (Expr × List Token)
  | 0, _ => none
  | n + 1, .keyword .ifWord :: ts =>
    (read n Strength.loose ts).bind fun
      | (c, .keyword .thenWord :: ts) => (read n Strength.loose ts).bind fun
        | (x, .keyword .elseWord :: ts) =>
          (read n Strength.loose ts).map fun p => (.ite c x p.1, p.2)
        | _ => none
      | _ => none
  | n + 1, .keyword .letWord :: .keyword .recWord :: .name f :: ts =>
    (readScope n (readNames ts).2).map fun p =>
      (.letRec ⟨f, .absent⟩ ((readNames ts).1.map (⟨·, .absent⟩)) p.1.1 p.1.2, p.2)
  | n + 1, .keyword .letWord :: .name x :: ts =>
    (readScope n ts).map fun p => (.letIn ⟨x, .absent⟩ p.1.1 p.1.2, p.2)
  | n + 1, .keyword .letWord :: .lparen :: ts =>
    (readTupleNames ts).bind fun q => (readScope n q.2).map fun p =>
      (.letTuple (q.1.map (⟨·, .absent⟩)) p.1.1 p.1.2, p.2)
  | n + 1, ts => read n Strength.compare ts

/-- Reads the value of a binding and the expression that it is for. -/
def readScope : Nat → List Token → Option ((Expr × Expr) × List Token)
  | n + 1, .equals :: ts =>
    (read n Strength.loose ts).bind fun
      | (v, .keyword .inWord :: ts) =>
        (read n Strength.loose ts).map fun p => ((v, p.1), p.2)
      | _ => none
  | _, _ => none

/-- Reads a negation, a negative number, or an application. -/
def readOperand : Nat → List Token → Option (Expr × List Token)
  | 0, _ => none
  | n + 1, .keyword .notWord :: ts => (read n Strength.atom ts).map fun p => (.not p.1, p.2)
  | _ + 1, .op .sub :: .number k :: ts => some (.int (-k), ts)
  | n + 1, .op .sub :: ts => (read n Strength.atom ts).map fun p => (.neg p.1, p.2)
  | n + 1, ts => (read n Strength.atom ts).bind fun p => (readArgs n p.2).map fun q =>
      (if q.1.isEmpty then p.1 else .app p.1 q.1 .absent, q.2)

/-- Reads atoms as long as there are any. -/
def readArgs : Nat → List Token → Option (List Expr × List Token)
  | 0, _ => none
  | n + 1, ts =>
    if ts.head?.any Token.opensAtom then
      (read n Strength.atom ts).bind fun p => (readArgs n p.2).map fun q => (p.1 :: q.1, q.2)
    else some ([], ts)

/-- Reads what needs no round brackets, or an expression or a tuple in round brackets. -/
def readAtom : Nat → List Token → Option (Expr × List Token)
  | _ + 1, .keyword .trueWord :: ts => some (.bool true, ts)
  | _ + 1, .keyword .falseWord :: ts => some (.bool false, ts)
  | _ + 1, .name x :: ts => some (.var x, ts)
  | _ + 1, .number k :: ts => some (.int k, ts)
  | _ + 1, .lparen :: .rparen :: ts => some (.unit, ts)
  | n + 1, .lparen :: ts =>
    (read n Strength.loose ts).bind fun p => (readElems n p.2).map fun q =>
      (if q.1.isEmpty then p.1 else .tuple (p.1 :: q.1), q.2)
  | _, _ => none

/-- Reads expressions after commas, up to a closing bracket. -/
def readElems : Nat → List Token → Option (List Expr × List Token)
  | n + 1, .comma :: ts =>
    (read n Strength.loose ts).bind fun p => (readElems n p.2).map fun q => (p.1 :: q.1, q.2)
  | _ + 1, .rparen :: ts => some ([], ts)
  | _, _ => none

end

/-! ### The tokens of an expression -/

/-- How expressions are written. -/
def script : Script Token where
  marks := "(),+-*/=<>".toList
  meaning := Token.ofLexeme

/-- The tokens of an expression as it is written on its own. -/
def tokens (e : Expr) : List Token :=
  script.tokens e.render

/-- The tokens of an expression as it is written at a place. -/
def tokensAt (s : Strength) (e : Expr) : List Token :=
  script.tokens (bracket s e e.render)

theorem tokensAt_eq (s : Strength) (e : Expr) :
    e.tokensAt s = if e.strength < s then .lparen :: (e.tokens ++ [.rparen]) else e.tokens := by
  rw [tokensAt, bracket, Script.tokens_parenthesizeIf rfl rfl]
  simp only [decide_eq_true_eq]
  rfl

theorem tokensAt_of_le {s : Strength} {e : Expr} (h : s ≤ e.strength) :
    e.tokensAt s = e.tokens := by
  rw [tokensAt_eq, if_neg (Nat.not_lt.2 h)]

theorem tokensAt_of_lt {s : Strength} {e : Expr} (h : e.strength < s) :
    e.tokensAt s = .lparen :: (e.tokens ++ [.rparen]) := by
  rw [tokensAt_eq, if_pos h]

theorem tokensAt_loose (e : Expr) : e.tokensAt Strength.loose = e.tokens :=
  tokensAt_of_le (Nat.zero_le _)

/-- Only the place of the strength of the expression differs from the next one. -/
theorem tokensAt_succ {s : Strength} {e : Expr} (h : e.strength ≠ s) :
    e.tokensAt (s + 1) = e.tokensAt s := by
  rw [tokensAt_eq, tokensAt_eq]
  have hlt : e.strength < s + 1 ↔ e.strength < s :=
    ⟨fun hlt => Nat.lt_of_le_of_ne (Nat.le_of_lt_succ hlt) h, Nat.lt_succ_of_lt⟩
  simp only [hlt]

/-! ### Names and numbers -/

/-- A word that can be a name: it does not start like a number and is no keyword. -/
structure IsName (x : String) : Prop where
  isWord : IsWord script.marks x
  not_digit : x.toList.head?.any Char.isDigit = false
  not_keyword : Keyword.ofText? x = none

theorem IsName.tokens {x : String} (h : IsName x) : script.tokens x = [.name x] := by
  have hmeaning : Token.ofWord x = .name x := by
    rw [Token.ofWord, h.not_digit, if_neg Bool.false_ne_true, h.not_keyword]
  rw [Script.tokens_word h.isWord, ← hmeaning]
  rfl

/-- A word of letters, digits and underscores is a name unless it starts with a digit or is a
keyword. -/
theorem IsName.of_alphanum {x : String} (hne : x ≠ "")
    (h : (x.toList.all fun c => c.isAlphanum || c == '_') = true)
    (hdigit : x.toList.head?.any Char.isDigit = false) (hkeyword : Keyword.ofText? x = none) :
    IsName x where
  isWord := by
    refine ⟨hne, fun c hc => ?_⟩
    have hc := List.all_eq_true.1 h c hc
    rw [Bool.or_eq_true, beq_iff_eq] at hc
    rcases hc with hc | rfl
    · exact isBreak_of_isAlphanum rfl hc
    · rfl
  not_digit := hdigit
  not_keyword := hkeyword

theorem tokens_repr (n : Nat) : script.tokens n.repr = [.number n] := by
  have hfirst : n.repr.toList.head?.any Char.isDigit = true := by
    cases hcs : n.repr.toList with
    | nil => exact absurd (String.toList_eq_nil_iff.1 hcs) Nat.repr_ne_empty
    | cons c cs => exact isDigit_of_mem_repr (n := n) (hcs ▸ List.mem_cons_self)
  have hword : IsWord script.marks n.repr :=
    ⟨Nat.repr_ne_empty, fun _ => isBreak_of_mem_repr rfl⟩
  have hmeaning : Token.ofWord n.repr = .number n := by
    rw [Token.ofWord, hfirst, if_pos rfl, Nat.toList_repr, Nat.ofDigitChars_ten_toDigits]
  rw [Script.tokens_word hword, ← hmeaning]
  rfl

/-! ### The kinds of expressions -/

theorem tokens_unit : unit.tokens = [.lparen, .rparen] := by
  rfl

theorem tokens_bool (b : Bool) :
    (bool b).tokens = [.keyword (if b then .trueWord else .falseWord)] := by
  cases b <;> rfl

theorem tokens_not (e : Expr) :
    (not e).tokens = .keyword .notWord :: e.tokensAt Strength.atom := by
  rw [tokens, render, Script.tokens_append_of_after (by rfl)]
  rfl

theorem tokens_neg (e : Expr) : (neg e).tokens = .op .sub :: e.tokensAt Strength.atom := by
  rw [tokens, render, Script.tokens_append_of_after (by rfl)]
  rfl

theorem tokens_arith {op : ArithOp} (hop : ∀ c, op ≠ .other c) (l r : Expr) :
    (arith op l r).tokens =
      l.tokensAt (opStrength op) ++ .op op :: r.tokensAt (opStrength op + 1) := by
  rw [tokens, render]
  cases op with
  | other c => exact absurd rfl (hop c)
  | _ =>
    rw [String.append_assoc, String.append_assoc, String.append_assoc,
      Script.tokens_infix (by rfl) (by rfl), Script.tokens_infix (by rfl) (by rfl)]
    rfl

theorem tokens_eq (l r : Expr) :
    (eq l r).tokens = l.tokensAt Strength.sum ++ .equals :: r.tokensAt Strength.sum := by
  rw [tokens, render, String.append_assoc, Script.tokens_infix (by rfl) (by rfl)]
  rfl

theorem tokens_le (l r : Expr) :
    (le l r).tokens = l.tokensAt Strength.sum ++ .less :: .equals :: r.tokensAt Strength.sum := by
  rw [tokens, render, String.append_assoc, Script.tokens_infix (by rfl) (by rfl)]
  rfl

theorem tokens_ite (c t f : Expr) :
    (ite c t f).tokens =
      .keyword .ifWord :: (c.tokens ++ .keyword .thenWord :: (t.tokens ++
        .keyword .elseWord :: f.tokens)) := by
  rw [tokens, render]
  simp only [String.append_assoc]
  rw [Script.tokens_append_of_after (by rfl), Script.tokens_infix (by rfl) (by rfl),
    Script.tokens_infix (by rfl) (by rfl)]
  rfl

theorem tokens_int_of_nonneg {n : Int} (h : 0 ≤ n) : (int n).tokens = [.number n.toNat] := by
  rw [tokens, render, Int.toString_eq_repr, Int.repr_eq_if, if_pos h, tokens_repr]

theorem tokens_int_of_neg {n : Int} (h : n < 0) :
    (int n).tokens = [.op .sub, .number (-n).toNat] := by
  rw [tokens, render, Int.toString_eq_repr, Int.repr_eq_if, if_neg (Int.not_le.2 h),
    Script.tokens_append_of_after (by rfl), tokens_repr]
  rfl

theorem tokens_var {x : String} (h : IsName x) : (var x).tokens = [.name x] :=
  h.tokens

theorem tokens_letIn {b : Binding} (h : IsName b.name) (v e : Expr) :
    (letIn b v e).tokens = .keyword .letWord :: .name b.name :: .equals ::
      (v.tokens ++ .keyword .inWord :: e.tokens) := by
  rw [tokens, render]
  simp only [String.append_assoc]
  rw [Script.tokens_append_of_after (by rfl), Script.tokens_infix (by rfl) (by rfl),
    Script.tokens_infix (by rfl) (by rfl), h.tokens]
  rfl

theorem flatMap_tokens {bs : List Binding} (h : ∀ b ∈ bs, IsName b.name) (sep : List Token) :
    ((bs.map (·.name)).flatMap fun x => sep ++ script.tokens x) =
      bs.flatMap fun b => sep ++ [.name b.name] := by
  rw [List.flatMap_map]
  exact List.flatMap_congr fun b hb => by rw [(h b hb).tokens]

theorem tokens_letRec {f : Binding} {args : List Binding} (h : ∀ b ∈ f :: args, IsName b.name)
    (body rest : Expr) :
    (letRec f args body rest).tokens = .keyword .letWord :: .keyword .recWord :: .name f.name ::
      ((args.flatMap fun b => [.name b.name]) ++ .equals ::
        (body.tokens ++ .keyword .inWord :: rest.tokens)) := by
  rw [List.forall_mem_cons] at h
  rw [tokens, render]
  simp only [String.append_assoc]
  rw [Script.tokens_append_of_after (by rfl), Script.tokens_infix (by rfl) (by rfl),
    Script.tokens_infix (by rfl) (by rfl), List.map_cons,
    Script.tokens_intercalate (by rfl) (by rfl), h.1.tokens, flatMap_tokens h.2]
  rfl

theorem tokens_tuple (e : Expr) (es : List Expr) :
    (tuple (e :: es)).tokens =
      .lparen :: (e.tokens ++ ((es.flatMap fun c => .comma :: c.tokens) ++ [.rparen])) := by
  rw [tokens, render, String.append_assoc, Script.tokens_append_of_after (by rfl),
    Script.tokens_append_of_before (by rfl), renderAll_eq_map, List.map_cons,
    Script.tokens_intercalate (by rfl) (by rfl), List.flatMap_map, List.append_assoc]
  rfl

theorem tokens_letTuple (vs : List Binding) (v e : Expr) :
    (letTuple vs v e).tokens = .keyword .letWord :: .lparen ::
      (script.tokens (", ".intercalate (vs.map (·.name))) ++ .rparen :: .equals ::
        (v.tokens ++ .keyword .inWord :: e.tokens)) := by
  rw [tokens, render]
  simp only [String.append_assoc]
  rw [Script.tokens_append_of_after (by rfl), Script.tokens_infix (by rfl) (by rfl),
    Script.tokens_infix (by rfl) (by rfl)]
  rfl

theorem tokens_append_renderArgs (text : String) (args : List Expr) :
    script.tokens (text ++ renderArgs args) =
      script.tokens text ++ args.flatMap (tokensAt Strength.atom) := by
  induction args generalizing text with
  | nil => rw [renderArgs, String.append_empty, List.flatMap_nil, List.append_nil]
  | cons e es ih =>
    rw [renderArgs, String.append_assoc, Script.tokens_infix (by rfl) (by rfl), ih]
    rfl

theorem tokens_app (fn : Expr) {args : List Expr} (h : args ≠ []) (t : Ty) :
    (app fn args t).tokens =
      fn.tokensAt Strength.atom ++ args.flatMap (tokensAt Strength.atom) := by
  rw [tokens, render_app fn h, tokens_append_renderArgs]
  rfl

end Expr

end LetPoly
