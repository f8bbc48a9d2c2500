import LetPoly.Ty.Printer
import Mathlib

/-!
# Words and marks

The printers write words, marks and blanks. A mark stands for itself and a blank only separates, so
a text falls apart at them without looking at what is around: what is written side by side is read
side by side, if there is a mark or a blank at the seam. Which characters are marks is a parameter.

## Main definitions

* `Text.Lexeme`, `Text.lexemes`: the words and marks of a text.
* `Text.IsWord`: a text that is one word.
* `Text.breaksAfter`, `Text.breaksBefore`: there is a mark or a blank at the end, or at the start.
* `Text.Script`, `Text.Script.tokens`: what the words and marks of a text mean.
* `Text.Settles`: a reader gives a result, if it may take enough steps.

## Main results

* `Text.lexemes_append_of_after`, `Text.lexemes_append_of_before`: texts side by side.
* `Text.lexemes_infix`: two texts with a separator between them.
* `Text.lexemes_intercalate`: a list of texts with separators.
-/

namespace LetPoly.Text

/-- A word or a mark. -/
inductive Lexeme where
  | word (text : String)
  | mark (c : Char)
  deriving DecidableEq

/-- The word with the given characters, if there are any. -/
def wordOf (w : List Char) : List Lexeme :=
  if w.isEmpty then [] else [.word (String.ofList w)]

/-- The mark, unless it is a blank. -/
def markOf (c : Char) : List Lexeme :=
  if c == ' ' then [] else [.mark c]

section

variable (marks : List Char)

/-- A character at which a word ends. -/
def isBreak (c : Char) : Bool :=
  (' ' :: marks).contains c

/-- The lexemes of a text that comes after the beginning `w` of a word. -/
def lexemesAfter (w : List Char) : List Char → List Lexeme
  | [] => wordOf w
  | c :: cs =>
    if isBreak marks c then wordOf w ++ (markOf c ++ lexemesAfter [] cs)
    else lexemesAfter (w ++ [c]) cs

/-- The words and marks of a text. -/
def lexemes (s : String) : List Lexeme :=
  lexemesAfter marks [] s.toList

/-- The text starts with a mark or a blank. -/
def breaksBefore (s : String) : Bool :=
  s.toList.head?.any (isBreak marks)

/-- The text ends with a mark or a blank. -/
def breaksAfter (s : String) : Bool :=
  s.toList.getLast?.any (isBreak marks)

/-- The text is one word. -/
def IsWord (s : String) : Prop :=
  s ≠ "" ∧ ∀ c ∈ s.toList, isBreak marks c = false

end

variable {marks : List Char} {c : Char} {a b sep s : String}

/-! ### Texts side by side -/

theorem lexemesAfter_break (hc : isBreak marks c = true) (w cs : List Char) :
    lexemesAfter marks w (c :: cs) = wordOf w ++ (markOf c ++ lexemesAfter marks [] cs) :=
  if_pos hc

/-- A mark or a blank ends the word before it. -/
theorem lexemesAfter_append_cons (hc : isBreak marks c = true) (w s cs : List Char) :
    lexemesAfter marks w (s ++ c :: cs) =
      lexemesAfter marks w s ++ lexemesAfter marks [] (c :: cs) := by
  induction s generalizing w with
  | nil =>
    rw [List.nil_append, lexemesAfter_break hc, lexemesAfter_break hc]
    rfl
  | cons d s ih =>
    rw [List.cons_append, lexemesAfter, lexemesAfter]
    split
    · rw [ih, List.append_assoc, List.append_assoc]
    · exact ih _

theorem lexemes_append_of_before (hb : breaksBefore marks b = true) :
    lexemes marks (a ++ b) = lexemes marks a ++ lexemes marks b := by
  rw [lexemes, String.toList_append]
  rw [breaksBefore] at hb
  cases hcs : b.toList with
  | nil =>
    rw [hcs] at hb
    cases hb
  | cons c cs =>
    rw [hcs] at hb
    rw [lexemesAfter_append_cons hb, lexemes, lexemes, hcs]

theorem lexemes_append_of_after (ha : breaksAfter marks a = true) :
    lexemes marks (a ++ b) = lexemes marks a ++ lexemes marks b := by
  rw [lexemes, String.toList_append]
  rw [breaksAfter] at ha
  rcases List.eq_nil_or_concat a.toList with hnil | ⟨s, c, hcs⟩
  · rw [hnil] at ha
    cases ha
  · rw [hcs, List.concat_eq_append] at ha ⊢
    rw [List.getLast?_concat] at ha
    rw [List.append_assoc, List.singleton_append, lexemesAfter_append_cons ha, lexemes, lexemes,
      hcs, List.concat_eq_append, lexemesAfter_append_cons ha, List.append_assoc,
      lexemesAfter_break ha, lexemesAfter_break ha, List.append_assoc, List.append_assoc]
    rfl

/-- Two texts with a separator between them. -/
theorem lexemes_infix (hl : breaksBefore marks sep = true) (hr : breaksAfter marks sep = true) :
    lexemes marks (a ++ (sep ++ b)) =
      lexemes marks a ++ (lexemes marks sep ++ lexemes marks b) := by
  have hbefore : breaksBefore marks (sep ++ b) = true := by
    rw [breaksBefore, String.toList_append]
    rw [breaksBefore] at hl
    cases hcs : sep.toList with
    | nil =>
      rw [hcs] at hl
      cases hl
    | cons c cs =>
      rw [hcs] at hl
      exact hl
  rw [lexemes_append_of_before hbefore, lexemes_append_of_after hr]

/-! ### Words and lists -/

theorem lexemesAfter_word (w s : List Char) (h : ∀ c ∈ s, isBreak marks c = false) :
    lexemesAfter marks w s = wordOf (w ++ s) := by
  induction s generalizing w with
  | nil => rw [lexemesAfter, List.append_nil]
  | cons c s ih =>
    rw [List.forall_mem_cons] at h
    rw [lexemesAfter, h.1, if_neg Bool.false_ne_true, ih _ h.2, List.append_assoc]
    rfl

theorem IsWord.lexemes (h : IsWord marks s) : lexemes marks s = [.word s] := by
  have hne : s.toList.isEmpty = false := by
    rw [List.isEmpty_eq_false_iff]
    exact fun hnil => h.1 (String.toList_eq_nil_iff.1 hnil)
  rw [Text.lexemes, lexemesAfter_word _ _ h.2, List.nil_append, wordOf, hne,
    if_neg Bool.false_ne_true, String.ofList_toList]

theorem isBreak_of_isAlphanum (hmarks : marks.any Char.isAlphanum = false)
    (h : c.isAlphanum = true) : isBreak marks c = false := by
  rw [← Bool.not_eq_true, isBreak, List.contains_iff_mem, List.mem_cons]
  rintro (rfl | hmem)
  · exact absurd h (by decide)
  · rw [List.any_eq_false] at hmarks
    exact hmarks c hmem h

theorem isDigit_of_mem_repr {n : Nat} (h : c ∈ n.repr.toList) : c.isDigit = true := by
  rw [Nat.toList_repr] at h
  exact Nat.isDigit_of_mem_toDigits (by omega) (by omega) h

theorem isBreak_of_mem_repr {n : Nat} (hmarks : marks.any Char.isAlphanum = false)
    (h : c ∈ n.repr.toList) : isBreak marks c = false :=
  isBreak_of_isAlphanum hmarks (Bool.or_eq_true_iff.2 (.inr (isDigit_of_mem_repr h)))

/-- The first text of a list, and then each other one after a separator. -/
theorem lexemes_intercalate (hl : breaksBefore marks sep = true)
    (hr : breaksAfter marks sep = true) (s : String) (texts : List String) :
    lexemes marks (sep.intercalate (s :: texts)) =
      lexemes marks s ++ texts.flatMap fun t => lexemes marks sep ++ lexemes marks t := by
  induction texts generalizing s with
  | nil => exact (List.append_nil _).symm
  | cons t texts ih =>
    rw [String.intercalate_cons_cons, String.append_assoc, lexemes_infix hl hr, ih,
      List.flatMap_cons, List.append_assoc]

theorem lexemes_parenthesizeIf (hl : isBreak marks '(' = true) (hr : isBreak marks ')' = true)
    (wrap : Bool) (s : String) :
    lexemes marks (parenthesizeIf wrap s) =
      if wrap then .mark '(' :: (lexemes marks s ++ [.mark ')']) else lexemes marks s := by
  cases wrap with
  | false => rfl
  | true =>
    have hbefore : breaksBefore marks ")" = true := hr
    have hafter : breaksAfter marks "(" = true := hl
    have hleft : lexemes marks "(" = [.mark '('] := lexemesAfter_break hl [] []
    have hright : lexemes marks ")" = [.mark ')'] := lexemesAfter_break hr [] []
    rw [parenthesizeIf, if_pos rfl, if_pos rfl, lexemes_append_of_before hbefore,
      lexemes_append_of_after hafter, hleft, hright]
    rfl

/-! ### Tokens -/

/-- Which characters are marks, and what words and marks mean. -/
structure Script (α : Type) where
  marks : List Char
  meaning : Lexeme → α

namespace Script

variable {α : Type} (S : Script α)

/-- What the words and marks of a text mean. -/
def tokens (text : String) : List α :=
  (lexemes S.marks text).map S.meaning

variable {S}

theorem tokens_append_of_before (hb : breaksBefore S.marks b = true) :
    S.tokens (a ++ b) = S.tokens a ++ S.tokens b := by
  rw [tokens, lexemes_append_of_before hb, List.map_append]
  rfl

theorem tokens_append_of_after (ha : breaksAfter S.marks a = true) :
    S.tokens (a ++ b) = S.tokens a ++ S.tokens b := by
  rw [tokens, lexemes_append_of_after ha, List.map_append]
  rfl

theorem tokens_infix (hl : breaksBefore S.marks sep = true) (hr : breaksAfter S.marks sep = true) :
    S.tokens (a ++ (sep ++ b)) = S.tokens a ++ (S.tokens sep ++ S.tokens b) := by
  rw [tokens, lexemes_infix hl hr, List.map_append, List.map_append]
  rfl

theorem tokens_intercalate (hl : breaksBefore S.marks sep = true)
    (hr : breaksAfter S.marks sep = true) (texts : List String) :
    S.tokens (sep.intercalate (a :: texts)) =
      S.tokens a ++ texts.flatMap fun t => S.tokens sep ++ S.tokens t := by
  rw [tokens, lexemes_intercalate hl hr, List.map_append, List.map_flatMap]
  simp only [List.map_append]
  rfl

theorem tokens_parenthesizeIf (hl : isBreak S.marks '(' = true) (hr : isBreak S.marks ')' = true)
    (wrap : Bool) (text : String) :
    S.tokens (parenthesizeIf wrap text) =
      if wrap then S.meaning (.mark '(') :: (S.tokens text ++ [S.meaning (.mark ')')])
      else S.tokens text := by
  rw [tokens, lexemes_parenthesizeIf hl hr]
  cases wrap with
  | false => rfl
  | true =>
    rw [if_pos rfl, if_pos rfl, List.map_cons, List.map_append]
    rfl

theorem tokens_word (h : IsWord S.marks s) : S.tokens s = [S.meaning (.word s)] := by
  rw [tokens, h.lexemes, List.map_singleton]

end Script

/-! ### Readers -/

/-- A reader that may take a limited number of steps gives the result if the limit is high
enough. -/
def Settles {α : Type} (f : Nat → Option α) (x : α) : Prop :=
  ∃ k, ∀ n, k ≤ n → f n = some x

namespace Settles

variable {α β : Type} {f g : Nat → Option α} {x y : α}

theorem const (x : α) : Settles (fun _ => some x) x :=
  ⟨0, fun _ _ => rfl⟩

/-- A reader that takes one step before it goes on like another one. -/
theorem step (h : Settles g x) (heq : ∀ n, f (n + 1) = g n) : Settles f x := by
  obtain ⟨k, hk⟩ := h
  refine ⟨k + 1, fun n hn => ?_⟩
  obtain ⟨m, rfl⟩ := Nat.exists_eq_add_of_le' hn
  exact (heq (m + k)).trans (hk _ (Nat.le_add_left k m))

theorem of_succ (h : Settles (fun n => f (n + 1)) x) : Settles f x :=
  h.step fun _ => rfl

theorem bind {r : Nat → α → Option β} {z : β} (h : Settles f x)
    (hr : Settles (fun n => r n x) z) : Settles (fun n => (f n).bind (r n)) z := by
  obtain ⟨k, hk⟩ := h
  obtain ⟨l, hl⟩ := hr
  refine ⟨max k l, fun n hn => ?_⟩
  simp only [hk n (le_of_max_le_left hn), Option.bind_some, hl n (le_of_max_le_right hn)]

theorem map {r : α → β} (h : Settles f x) : Settles (fun n => (f n).map r) (r x) := by
  obtain ⟨k, hk⟩ := h
  exact ⟨k, fun n hn => by simp only [hk n hn, Option.map_some]⟩

/-- There is only one result. -/
theorem unique (h : Settles f x) (h' : Settles f y) : x = y := by
  obtain ⟨k, hk⟩ := h
  obtain ⟨l, hl⟩ := h'
  have hsame := hk (max k l) (le_max_left k l)
  rw [hl _ (le_max_right k l)] at hsame
  exact (Option.some.inj hsame).symm

end Settles

end LetPoly.Text
