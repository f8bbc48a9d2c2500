import LetPoly.Proofs.Relabelling
import LetPoly.Proofs.TypeReading
import Mathlib.Data.List.GetD
import Mathlib.Data.Set.Function

/-!
# Schemes with the same text

The letters of a scheme say in which order its quantified variables first appear and nothing else
about them, and a free variable shows its id. So the text of a scheme is a normal form: the same
text means that the letters pair the quantified variables of one scheme with those of the other,
and schemes that can be paired in this way are given the same letters.

## Main definitions

* `Scheme.Matches`, `Scheme.AlphaEquiv`: two schemes are the same up to the choice of their
  quantified variables.
* `Scheme.counterpart`: the variable of another scheme with the same letter.

## Main results

* `Ty.idName_injective`, `Scheme.letter_injective`, `Scheme.letter_ne_idName`: names tell variables
  apart.
* `Ty.relabel_eq_of_subst_eq`: types that are read alike are the same up to their variables.
* `Scheme.Matches.order_eq`: matching schemes have their quantified variables in the same order.
* `Scheme.render_eq_iff_alphaEquiv`: the text of a scheme decides alpha-equivalence.
-/

namespace LetPoly

open Text

/-! ### Names -/

/-- Digits tell numbers apart. -/
theorem Text.eq_of_repr_eq {m n : Nat} (h : m.repr = n.repr) : m = n := by
  calc m = Nat.ofDigitChars 10 m.repr.toList 0 := by
        rw [Nat.toList_repr, Nat.ofDigitChars_ten_toDigits]
    _ = Nat.ofDigitChars 10 n.repr.toList 0 := by rw [h]
    _ = n := by rw [Nat.toList_repr, Nat.ofDigitChars_ten_toDigits]

namespace Ty

theorem idName_of_nonneg {v : Int} (h : 0 ≤ v) : idName v = "'_" ++ v.toNat.repr := by
  rw [idName, Int.toString_eq_repr, Int.repr_eq_if, if_pos h]

theorem idName_of_neg {v : Int} (h : v < 0) : idName v = "'_-" ++ (-v).toNat.repr := by
  rw [idName, Int.toString_eq_repr, Int.repr_eq_if, if_neg (Int.not_le.2 h), ← String.append_assoc]
  rfl

theorem idName_injective : Function.Injective idName := by
  -- a minus is no digit
  have hminus (m n : Nat) : "'_" ++ m.repr ≠ "'_-" ++ n.repr := by
    intro heq
    have hlist := congrArg String.toList heq
    rw [String.toList_append, String.toList_append] at hlist
    have hsame : "'_".toList ++ m.repr.toList = "'_".toList ++ '-' :: n.repr.toList := hlist
    have htail := List.append_cancel_left hsame
    have hdigit := isDigit_of_mem_repr (n := m) (c := '-') (htail ▸ List.mem_cons_self)
    exact absurd hdigit (by decide)
  intro v w h
  rcases lt_or_ge v 0 with hv | hv <;> rcases lt_or_ge w 0 with hw | hw
  · rw [idName_of_neg hv, idName_of_neg hw] at h
    have := eq_of_repr_eq ((String.append_right_inj _).1 h)
    omega
  · rw [idName_of_neg hv, idName_of_nonneg hw] at h
    exact absurd h.symm (hminus _ _)
  · rw [idName_of_nonneg hv, idName_of_neg hw] at h
    exact absurd h (hminus _ _)
  · rw [idName_of_nonneg hv, idName_of_nonneg hw] at h
    have := eq_of_repr_eq ((String.append_right_inj _).1 h)
    omega

theorem isVarName_idName (v : Int) : IsVarName (idName v) := by
  have hdigit (n : Nat) : ∀ c ∈ n.repr.toList, isBreak script.marks c = false :=
    fun c => isBreak_of_mem_repr rfl
  rcases lt_or_ge v 0 with hv | hv
  · refine ⟨'_' :: '-' :: (-v).toNat.repr.toList, ?_, ?_⟩
    · rw [idName_of_neg hv, String.toList_append]
      rfl
    · exact List.forall_mem_cons.2 ⟨rfl, List.forall_mem_cons.2 ⟨rfl, hdigit _⟩⟩
  · refine ⟨'_' :: v.toNat.repr.toList, ?_, ?_⟩
    · rw [idName_of_nonneg hv, String.toList_append]
      rfl
    · exact List.forall_mem_cons.2 ⟨rfl, hdigit _⟩

end Ty

namespace Scheme

/-- The characters of a letter: a mark of a variable, the letter itself, and perhaps a number. -/
theorem toList_letter (i : Nat) :
    (letter i).toList = "'".toList ++ (Char.ofNat ('a'.toNat + i % 26) ::
      if i < 26 then [] else (i / 26).repr.toList) := by
  rw [letter]
  split
  · rw [String.toList_append, String.toList_singleton]
  · rw [String.toList_append, String.toList_append, String.toList_singleton, Nat.toString_eq_repr]
    rfl

theorem isAlpha_letterChar (i : Nat) :
    (Char.ofNat ('a'.toNat + i % 26)).isAlpha = true := by
  have hall : ∀ r < 26, (Char.ofNat ('a'.toNat + r)).isAlpha = true := by decide
  exact hall _ (Nat.mod_lt i (by omega))

theorem letter_injective : Function.Injective letter := by
  have hchar : ∀ r < 26, ∀ s < 26,
      Char.ofNat ('a'.toNat + r) = Char.ofNat ('a'.toNat + s) → r = s := by decide
  intro i j h
  have hlist := congrArg String.toList h
  rw [toList_letter, toList_letter] at hlist
  obtain ⟨hhead, htail⟩ := List.cons.inj (List.append_cancel_left hlist)
  have hmod := hchar _ (Nat.mod_lt i (by omega)) _ (Nat.mod_lt j (by omega)) hhead
  have hne (n : Nat) : n.repr.toList ≠ [] := fun hnil =>
    Nat.repr_ne_empty (String.toList_eq_nil_iff.1 hnil)
  by_cases hi : i < 26 <;> by_cases hj : j < 26
  · omega
  · rw [if_pos hi, if_neg hj] at htail
    exact absurd htail.symm (hne _)
  · rw [if_neg hi, if_pos hj] at htail
    exact absurd htail (hne _)
  · rw [if_neg hi, if_neg hj, String.toList_inj] at htail
    have := eq_of_repr_eq htail
    omega

theorem isVarName_letter (i : Nat) : Ty.IsVarName (letter i) := by
  refine ⟨_, toList_letter i, List.forall_mem_cons.2 ⟨?_, ?_⟩⟩
  · exact isBreak_of_isAlphanum rfl (Bool.or_eq_true_iff.2 (.inl (isAlpha_letterChar i)))
  · split
    · exact fun c hc => absurd hc List.not_mem_nil
    · exact fun c => isBreak_of_mem_repr rfl

theorem isVarName_varName (σ : Scheme) (v : Int) : Ty.IsVarName (σ.varName v) := by
  rw [varName]
  split
  · exact isVarName_letter _
  · exact Ty.isVarName_idName v

/-- A letter is no underscore. -/
theorem letter_ne_idName (i : Nat) (v : Int) : letter i ≠ Ty.idName v := by
  intro h
  have hlist := congrArg String.toList h
  rw [toList_letter, Ty.idName, String.toList_append] at hlist
  have hsame : "'".toList ++ (Char.ofNat ('a'.toNat + i % 26) ::
      if i < 26 then [] else (i / 26).repr.toList) =
        "'".toList ++ '_' :: (toString v).toList := hlist
  have hhead := (List.cons.inj (List.append_cancel_left hsame)).1
  have halpha := isAlpha_letterChar i
  rw [hhead] at halpha
  exact absurd halpha (by decide)

end Scheme

/-! ### Types with the same text -/

namespace Ty

theorem varsAll_eq_flatMap (ts : List Ty) : varsAll ts = ts.flatMap vars := by
  induction ts with
  | nil => rfl
  | cons t ts ih => rw [varsAll, ih, List.flatMap_cons]

theorem varsAll_dropUnit (ts : List Ty) : varsAll (dropUnit ts) = varsAll ts := by
  rw [dropUnit.eq_def]
  split <;> rfl

theorem vars_norm (t : Ty) : t.norm.vars = t.vars := by
  induction t using Ty.ind with
  | absent | const n | var v => rfl
  | arrow args ret iha ihr =>
    rw [norm_arrow, vars, vars, varsAll_dropUnit, varsAll_eq_flatMap, varsAll_eq_flatMap, ihr,
      List.flatMap_map, List.flatMap_congr iha]
  | tuple elems ih =>
    rw [norm_tuple, vars, vars, varsAll_eq_flatMap, varsAll_eq_flatMap, List.flatMap_map,
      List.flatMap_congr ih]

theorem vars_relabel (f : Int → Int) (t : Ty) : (t.relabel f).vars = t.vars.map f := by
  induction t using Ty.ind with
  | absent | const n | var v => rfl
  | arrow args ret iha ihr =>
    rw [relabel_arrow, vars, vars, varsAll_eq_flatMap, varsAll_eq_flatMap, ihr, List.map_append,
      List.flatMap_map, List.map_flatMap, List.flatMap_congr iha]
  | tuple elems ih =>
    rw [relabel_tuple, vars, vars, varsAll_eq_flatMap, varsAll_eq_flatMap, List.flatMap_map,
      List.map_flatMap, List.flatMap_congr ih]

variable {name name' : Int → String} {g : Ty → Ty}

theorem renderAll_map {ts : List Ty}
    (h : ∀ t ∈ ts, ∀ place, (g t).renderIn name' place = t.renderIn name place) (place : Place) :
    renderAll name' place (ts.map g) = renderAll name place ts := by
  rw [renderAll_eq_map, renderAll_eq_map, List.map_map]
  exact List.map_congr_left fun t ht => h t ht place

theorem headText_map {args : List Ty}
    (h : ∀ t ∈ args, ∀ place, (g t).renderIn name' place = t.renderIn name place) :
    headText name' (args.map g) = headText name args := by
  rw [headText, headText, List.length_map, renderAll_map h]

/-- No arguments are written like an empty tuple. -/
theorem headText_dropUnit (args : List Ty) :
    headText name (dropUnit args) = headText name args := by
  rw [dropUnit.eq_def]
  split <;> rfl

theorem renderIn_norm (t : Ty) (place : Place) :
    t.norm.renderIn name place = t.renderIn name place := by
  induction t using Ty.ind generalizing place with
  | absent | const n | var v => rfl
  | arrow args ret iha ihr =>
    rw [norm_arrow, renderIn_arrow, renderIn_arrow, headText_dropUnit, headText_map iha, ihr]
  | tuple elems ih =>
    rw [norm_tuple, renderIn, renderIn, renderAll_map ih, List.length_map]

theorem renderIn_relabel {f : Int → Int} {t : Ty} (h : ∀ v ∈ t.vars, name' (f v) = name v)
    (place : Place) : (t.relabel f).renderIn name' place = t.renderIn name place := by
  induction t using Ty.ind generalizing place with
  | absent | const n => rfl
  | var v => exact h v (mem_vars_var.2 rfl)
  | arrow args ret iha ihr =>
    rw [relabel_arrow, renderIn_arrow, renderIn_arrow,
      headText_map fun a ha => iha a ha fun v hv => h v (mem_vars_arrow.2 (.inl ⟨a, ha, hv⟩)),
      ihr fun v hv => h v (mem_vars_arrow.2 (.inr hv))]
  | tuple elems ih =>
    rw [relabel_tuple, renderIn, renderIn, List.length_map,
      renderAll_map fun a ha => ih a ha fun v hv => h v (mem_vars_tuple.2 ⟨a, ha, hv⟩)]

theorem Proper.norm {t : Ty} (h : t.Proper) : t.norm.Proper := by
  induction h with
  | const h => exact .const h
  | var v => exact .var v
  | @arrow args ret _ _ iha ihr =>
    rw [norm_arrow]
    refine .arrow (fun a ha => ?_) ihr
    have hmem : a ∈ args.map Ty.norm := by
      rw [dropUnit.eq_def] at ha
      split at ha
      · cases ha
      · exact ha
    obtain ⟨b, hb, rfl⟩ := List.mem_map.1 hmem
    exact iha b hb
  | tuple _ ih =>
    rw [norm_tuple]
    exact .tuple (List.forall_mem_map.2 ih)

theorem map_eq_of_map_eq_map {α β : Type} {p q : α → β} {k : α → α} {xs ys : List α}
    (heq : xs.map p = ys.map q) (hk : ∀ x ∈ xs, ∀ y ∈ ys, p x = q y → k x = y) :
    xs.map k = ys := by
  induction xs generalizing ys with
  | nil => exact (List.map_eq_nil_iff.1 heq.symm).symm
  | cons x xs ih =>
    cases ys with
    | nil => cases heq
    | cons y ys =>
      obtain ⟨hhead, htail⟩ := List.cons.inj heq
      rw [List.forall_mem_cons] at hk
      rw [List.map_cons, hk.1 y List.mem_cons_self hhead,
        ih htail fun x hx y hy => hk.2 x hx y (List.mem_cons_of_mem _ hy)]

/-- Variables can be told from constants by their names. -/
theorem relabel_eq_of_subst_eq {f : Int → Int} {a b : Ty} (ha : a.Proper) (hb : b.Proper)
    (hname : ∀ v, IsVarName (name v)) (hname' : ∀ v, IsVarName (name' v))
    (h : (a.subst fun v => .const (name v)) = b.subst fun v => .const (name' v))
    (hf : ∀ v ∈ a.vars, ∀ w ∈ b.vars, name v = name' w → f v = w) : a.relabel f = b := by
  induction ha generalizing b with
  | const hn =>
    cases hb with
    | const _ => exact h
    | var w =>
      exact absurd hn (const.inj h ▸ (hname' w).not_mem_builtin)
    | arrow _ _ | tuple _ => simp at h
  | var v =>
    cases hb with
    | const hn => exact absurd hn (const.inj h ▸ (hname v).not_mem_builtin)
    | var w => exact congrArg var (hf v (mem_vars_var.2 rfl) w (mem_vars_var.2 rfl) (const.inj h))
    | arrow _ _ | tuple _ => simp at h
  | @arrow args ret _ _ iha ihr =>
    cases hb with
    | const _ | var _ | tuple _ => simp at h
    | @arrow args' ret' hargs' hret' =>
      rw [subst_arrow, subst_arrow] at h
      obtain ⟨hargs, hret⟩ := arrow.inj h
      rw [relabel_arrow, ihr hret' hret fun v hv w hw =>
        hf v (mem_vars_arrow.2 (.inr hv)) w (mem_vars_arrow.2 (.inr hw))]
      refine congrArg (arrow · ret') (map_eq_of_map_eq_map hargs fun x hx y hy hxy => ?_)
      exact iha x hx (hargs' y hy) hxy fun v hv w hw =>
        hf v (mem_vars_arrow.2 (.inl ⟨x, hx, hv⟩)) w (mem_vars_arrow.2 (.inl ⟨y, hy, hw⟩))
  | @tuple elems _ ih =>
    cases hb with
    | const _ | var _ | arrow _ _ => simp at h
    | @tuple elems' helems' =>
      rw [subst_tuple, subst_tuple] at h
      rw [relabel_tuple]
      refine congrArg tuple (map_eq_of_map_eq_map (tuple.inj h) fun x hx y hy hxy => ?_)
      exact ih x hx (helems' y hy) hxy fun v hv w hw =>
        hf v (mem_vars_tuple.2 ⟨x, hx, hv⟩) w (mem_vars_tuple.2 ⟨y, hy, hw⟩)

/-- Types with the same text are the same up to how their variables are called. -/
theorem spell_eq_of_renderIn_eq {t u : Ty} (ht : t.Proper) (hu : u.Proper)
    (hname : ∀ v, IsVarName (name v)) (hname' : ∀ v, IsVarName (name' v))
    (h : t.renderIn name .top = u.renderIn name' .top) : t.spell name = u.spell name' := by
  have hread := ht.readType_tokens hname
  rw [h] at hread
  exact congrArg Prod.fst (hread.unique (hu.readType_tokens hname'))

/-- Ids tell all variables apart. -/
theorem render_eq_iff_norm_eq {t u : Ty} (ht : t.Proper) (hu : u.Proper) :
    t.render = u.render ↔ t.norm = u.norm := by
  constructor
  · intro h
    have hspell := spell_eq_of_renderIn_eq ht hu isVarName_idName isVarName_idName h
    rw [← relabel_eq_self (f := id) fun v (_ : v ∈ t.norm.vars) => rfl]
    exact relabel_eq_of_subst_eq ht.norm hu.norm isVarName_idName isVarName_idName hspell
      fun v _ w _ heq => idName_injective heq
  · intro h
    rw [render, render, ← renderIn_norm t, h, renderIn_norm]

end Ty

/-! ### Schemes with the same text -/

namespace Scheme

variable {σ τ : Scheme} {f : Int → Int} {v w : Int}

/-- The function `f` takes the quantified variables of `σ` to those of `τ`, one to one, leaves the
free ones alone, and makes the bodies the same. -/
structure Matches (f : Int → Int) (σ τ : Scheme) : Prop where
  bijOn : Set.BijOn f {v | v ∈ σ.body.vars ∧ v ∈ σ.bound} {v | v ∈ τ.body.vars ∧ v ∈ τ.bound}
  free : ∀ v ∈ σ.body.vars, v ∉ σ.bound → f v = v ∧ v ∉ τ.bound
  body : σ.body.norm.relabel f = τ.body.norm

/-- The schemes are the same up to the choice of their quantified variables. -/
def AlphaEquiv (σ τ : Scheme) : Prop :=
  ∃ f, Matches f σ τ

theorem varName_of_mem (h : v ∈ σ.bound) : σ.varName v = letter (σ.order.idxOf v) :=
  if_pos h

theorem varName_of_not_mem (h : v ∉ σ.bound) : σ.varName v = Ty.idName v :=
  if_neg h

theorem mem_order : v ∈ σ.order ↔ v ∈ σ.body.vars ∧ v ∈ σ.bound := by
  rw [order, List.mem_eraseDups, List.mem_filter, VarSet.contains_iff]

/-- Whether a variable is quantified can be seen from its name. -/
theorem mem_bound_iff_of_varName_eq (h : σ.varName v = τ.varName w) :
    v ∈ σ.bound ↔ w ∈ τ.bound := by
  by_cases hv : v ∈ σ.bound <;> by_cases hw : w ∈ τ.bound
  · exact iff_of_true hv hw
  · rw [varName_of_mem hv, varName_of_not_mem hw] at h
    exact absurd h (letter_ne_idName _ _)
  · rw [varName_of_not_mem hv, varName_of_mem hw] at h
    exact absurd h.symm (letter_ne_idName _ _)
  · exact iff_of_false hv hw

/-- The quantified variable of `τ` that has the letter of a quantified variable of `σ`. -/
def counterpart (σ τ : Scheme) (v : Int) : Int :=
  if v ∈ σ.bound then τ.order.getD (σ.order.idxOf v) 0 else v

theorem counterpart_eq (hw : w ∈ τ.body.vars) (h : σ.varName v = τ.varName w) :
    counterpart σ τ v = w := by
  have hiff := mem_bound_iff_of_varName_eq h
  by_cases hv : v ∈ σ.bound
  · have hmem : w ∈ τ.order := mem_order.2 ⟨hw, hiff.1 hv⟩
    rw [varName_of_mem hv, varName_of_mem (hiff.1 hv)] at h
    have hidx := List.idxOf_lt_length_of_mem hmem
    rw [counterpart, if_pos hv, letter_injective h, List.getD_eq_getElem _ _ hidx,
      List.getElem_idxOf hidx]
  · rw [varName_of_not_mem hv, varName_of_not_mem (mt hiff.2 hv)] at h
    rw [counterpart, if_neg hv, Ty.idName_injective h]

theorem matches_of_render_eq (hσ : σ.body.Proper) (hτ : τ.body.Proper)
    (h : σ.render = τ.render) : Matches (counterpart σ τ) σ τ := by
  have hspell := Ty.spell_eq_of_renderIn_eq hσ hτ (isVarName_varName σ) (isVarName_varName τ) h
  have hbody : σ.body.norm.relabel (counterpart σ τ) = τ.body.norm :=
    Ty.relabel_eq_of_subst_eq hσ.norm hτ.norm (isVarName_varName σ) (isVarName_varName τ) hspell
      fun v _ w hw heq => counterpart_eq (Ty.vars_norm τ.body ▸ hw) heq
  have hvars : τ.body.vars = σ.body.vars.map (counterpart σ τ) := by
    rw [← Ty.vars_norm, ← hbody, Ty.vars_relabel, Ty.vars_norm]
  -- a variable and its counterpart have the same name
  have hnames (v : Int) (hv : v ∈ σ.body.vars) :
      σ.varName v = τ.varName (counterpart σ τ v) := by
    have hsame := hspell
    rw [Ty.spell, Ty.spell, ← hbody, Ty.subst_relabel] at hsame
    exact Ty.const.inj (Ty.forall_of_subst_eq hsame v (Ty.vars_norm σ.body ▸ hv))
  have hbound (v : Int) (hv : v ∈ σ.body.vars) := mem_bound_iff_of_varName_eq (hnames v hv)
  refine ⟨⟨?_, ?_, ?_⟩, ?_, hbody⟩
  · rintro v ⟨hv, hb⟩
    exact ⟨hvars ▸ List.mem_map_of_mem hv, (hbound v hv).1 hb⟩
  · rintro v ⟨hv, hb⟩ w ⟨hw, hb'⟩ heq
    have hletter := hnames v hv
    rw [heq, ← hnames w hw, varName_of_mem hb, varName_of_mem hb'] at hletter
    exact (List.idxOf_inj (mem_order.2 ⟨hv, hb⟩)).1 (letter_injective hletter)
  · rintro w ⟨hw, hb⟩
    rw [hvars] at hw
    obtain ⟨v, hv, rfl⟩ := List.mem_map.1 hw
    exact ⟨v, ⟨hv, (hbound v hv).2 hb⟩, rfl⟩
  · intro v hv hb
    have hfix : counterpart σ τ v = v := if_neg hb
    exact ⟨hfix, fun hb' => hb ((hbound v hv).2 (hfix.symm ▸ hb'))⟩

/-- Repeats are repeats under other names. -/
theorem eraseDups_map : {l : List Int} → Set.InjOn f {v | v ∈ l} →
    (l.map f).eraseDups = l.eraseDups.map f
  | [], _ => rfl
  | a :: l, hf => by
    have hfilter : l.filter ((fun b => !b == f a) ∘ f) = l.filter fun b => !b == a := by
      refine List.filter_congr fun b hb => ?_
      have hiff : f b = f a ↔ b = a :=
        ⟨fun h => hf (List.mem_cons_of_mem _ hb) List.mem_cons_self h, congrArg f⟩
      simp only [Function.comp_apply, beq_eq_decide, hiff]
    rw [List.map_cons, List.eraseDups_cons, List.eraseDups_cons, List.map_cons, List.filter_map,
      hfilter, eraseDups_map (hf.mono fun b hb => List.mem_cons_of_mem _ (List.mem_filter.1 hb).1)]
termination_by l => l.length
decreasing_by exact Nat.lt_succ_of_le (List.length_filter_le _ _)

theorem idxOf_map {l : List Int} (hf : Set.InjOn f {v | v ∈ l}) (hv : v ∈ l) :
    (l.map f).idxOf (f v) = l.idxOf v := by
  induction l with
  | nil => cases hv
  | cons a l ih =>
    have hiff : f a = f v ↔ a = v := ⟨fun h => hf List.mem_cons_self hv h, congrArg f⟩
    rw [List.map_cons, List.idxOf_cons, List.idxOf_cons, beq_eq_decide, beq_eq_decide]
    simp only [hiff]
    by_cases ha : a = v
    · rw [decide_eq_true ha]
      rfl
    · rw [decide_eq_false ha]
      have hmem := (List.mem_cons.1 hv).resolve_left (Ne.symm ha)
      exact congrArg (· + 1) (ih (hf.mono fun b hb => List.mem_cons_of_mem _ hb) hmem)

namespace Matches

variable (h : Matches f σ τ)
include h

theorem vars_eq : τ.body.vars = σ.body.vars.map f := by
  rw [← Ty.vars_norm, ← h.body, Ty.vars_relabel, Ty.vars_norm]

theorem mem_bound_iff (hv : v ∈ σ.body.vars) : f v ∈ τ.bound ↔ v ∈ σ.bound := by
  by_cases hb : v ∈ σ.bound
  · exact iff_of_true (h.bijOn.mapsTo ⟨hv, hb⟩).2 hb
  · obtain ⟨hfix, hfree⟩ := h.free v hv hb
    exact iff_of_false (hfix.symm ▸ hfree) hb

theorem order_eq : τ.order = σ.order.map f := by
  have hfilter : σ.body.vars.filter (τ.bound.contains ∘ f) =
      σ.body.vars.filter σ.bound.contains := by
    refine List.filter_congr fun v hv => ?_
    rw [Function.comp_apply, Bool.eq_iff_iff, VarSet.contains_iff, VarSet.contains_iff,
      h.mem_bound_iff hv]
  have hinj : Set.InjOn f {v | v ∈ σ.body.vars.filter σ.bound.contains} := by
    refine h.bijOn.injOn.mono fun v hv => ?_
    have hv := List.mem_filter.1 hv
    exact ⟨hv.1, VarSet.contains_iff.1 hv.2⟩
  rw [order, h.vars_eq, List.filter_map, hfilter, eraseDups_map hinj]
  rfl

theorem varName_eq (hv : v ∈ σ.body.vars) : τ.varName (f v) = σ.varName v := by
  by_cases hb : v ∈ σ.bound
  · have hinj : Set.InjOn f {v | v ∈ σ.order} := h.bijOn.injOn.mono fun v hv => mem_order.1 hv
    rw [varName_of_mem hb, varName_of_mem ((h.mem_bound_iff hv).2 hb), h.order_eq,
      idxOf_map hinj (mem_order.2 ⟨hv, hb⟩)]
  · obtain ⟨hfix, hfree⟩ := h.free v hv hb
    rw [hfix, varName_of_not_mem hb, varName_of_not_mem hfree]

theorem render_eq : σ.render = τ.render := by
  have hnames : ∀ v ∈ σ.body.norm.vars, τ.varName (f v) = σ.varName v := by
    rw [Ty.vars_norm]
    exact fun v => h.varName_eq
  calc σ.render = σ.body.norm.renderIn σ.varName .top := (Ty.renderIn_norm _ _).symm
    _ = (σ.body.norm.relabel f).renderIn τ.varName .top := (Ty.renderIn_relabel hnames _).symm
    _ = τ.body.norm.renderIn τ.varName .top := by rw [h.body]
    _ = τ.render := Ty.renderIn_norm _ _

end Matches

/-- **The text of a scheme decides alpha-equivalence.** Two schemes have the same text if and only
if they are the same up to the choice of their quantified variables; and if nothing is quantified,
if and only if their types are the same. In both cases, no arguments and an empty tuple as the only
argument are the same. -/
theorem render_eq_iff_alphaEquiv {σ τ : Scheme} (hσ : σ.body.Proper) (hτ : τ.body.Proper) :
    (σ.render = τ.render ↔ AlphaEquiv σ τ) ∧
      (σ.body.render = τ.body.render ↔ σ.body.norm = τ.body.norm) :=
  ⟨⟨fun h => ⟨_, matches_of_render_eq hσ hτ h⟩, fun ⟨_, h⟩ => h.render_eq⟩,
    Ty.render_eq_iff_norm_eq hσ hτ⟩

/-- `() -> ('a, '_1) -> 'b` with an empty tuple as an argument. -/
def suspended : Scheme :=
  ⟨.ofList [3, 8], .arrow [.tuple []] (.arrow [.var 3, .var 1] (.var 8))⟩

/-- The same with no argument, other variables, and one more in the set of quantified ones. -/
def suspendedBare : Scheme :=
  ⟨.ofList [9, 2, 40], .arrow [] (.arrow [.var 9, .var 1] (.var 2))⟩

theorem render_eq_iff_alphaEquiv_suspended :
    suspended.body.Proper ∧ suspendedBare.body.Proper ∧ AlphaEquiv suspended suspendedBare := by
  have hinner (v w : Int) : (Ty.arrow [.var v, .var 1] (.var w)).Proper :=
    .arrow (by simp [Ty.Proper.var]) (.var w)
  have hleft : suspended.body.Proper :=
    .arrow (List.forall_mem_singleton.2 (.tuple fun _ h => nomatch h)) (hinner 3 8)
  have hright : suspendedBare.body.Proper := .arrow (fun _ h => nomatch h) (hinner 9 2)
  exact ⟨hleft, hright, (render_eq_iff_alphaEquiv hleft hright).1.1 (by cbv)⟩

end Scheme

end LetPoly
