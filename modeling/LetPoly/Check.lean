import LetPoly.Inference.Context
import LetPoly.Program.Load

/-!
# Checking programs

To check a program is to infer its type. The report has the type in its last line, and before that,
on demand, one line for each binding and each application. An error is reported with the file and
the position it belongs to, and then there are no lines.

## Main definitions

* `Palette`: how reports are coloured.
* `TypeNote`, `typeNotes`: the types of bindings and applications.
* `CheckError`, `CheckError.message`: why there is no type.
* `Check`, `check`: the report on a program.
-/

namespace LetPoly

open Text (Position)

/-! ### Colours -/

/-- Are reports coloured? -/
structure Palette where
  colored : Bool := false

namespace Palette

/-- The text in the colour with the given code. -/
def paint (p : Palette) (code text : String) : String :=
  if p.colored then "\x1b[" ++ code ++ "m" ++ text ++ "\x1b[0m" else text

/-- Dimmed text, for positions. -/
def dim (p : Palette) (text : String) : String :=
  p.paint "2" text

/-- Cyan text, for types. -/
def cyan (p : Palette) (text : String) : String :=
  p.paint "36" text

/-- Red text, for errors. -/
def red (p : Palette) (text : String) : String :=
  p.paint "31" text

end Palette

/-! ### Types of bindings and applications -/

/-- The type of a binding or an application. -/
structure TypeNote where
  position : Position
  label : String
  type : Ty

/-- How a slot is called in a report. -/
def Slot.title (s : Slot) : String :=
  match s.kind with
  | .letVar | .tupleVar => "let " ++ s.label
  | .recFunc => "let rec " ++ s.label
  | .recArg => "  arg " ++ s.label
  | .application => s.label

/-- The types in the slots of a program's tree after it was annotated, each node before its
children. -/
def typeNotes (p : Program) (tree : Expr) : List TypeNote :=
  (tree.places.zip p.positions).flatMap fun ((_, e), q) =>
    e.ownSlots.map fun s => ⟨q, s.title, s.type⟩

/-- The line for a note. -/
def TypeNote.line (palette : Palette) (a : TypeNote) : String :=
  palette.dim (a.position.render ++ ":") ++ " " ++ a.label ++ " : " ++ palette.cyan a.type.render

/-! ### Errors -/

/-- What is wrong at a position of a program. -/
inductive Cause where
  | problem (p : Problem)
  | inference (e : InferError)

def Cause.message : Cause → String
  | .problem p => p.message
  | .inference e => e.message

/-- Why a program has no type. -/
inductive CheckError where
  /-- There is no program. -/
  | load (e : LoadError)
  /-- Something is wrong at a position. -/
  | located (path : String) (position : Position) (cause : Cause)
  /-- Inference failed, and no position is known. -/
  | unlocated (path : String) (e : InferError)
  /-- The tree has a node of an unknown kind. -/
  | unknownKind (k : Expr.UnknownKind)

/-- The wording of an error. -/
def CheckError.message : CheckError → String
  | .load e => e.message
  | .located path q cause => path ++ ":" ++ q.render ++ ": " ++ cause.message
  | .unlocated path e => path ++ ": " ++ e.message
  | .unknownKind k => k.message

/-! ### Reports -/

/-- A report on a program: its lines, and what happened on the way. -/
structure Check where
  result : Except CheckError (List String)
  trace : List Event := []

/-- The lines for a program whose tree was annotated. -/
def reportLines (palette : Palette) (annotate : Bool) (p : Program) (tree : Expr) (t : Ty) :
    List String :=
  (if annotate then (typeNotes p tree).map (TypeNote.line palette) else []) ++
    [palette.cyan t.render]

/-- The error of an inference that failed. -/
def inferenceError (path : String) (p : Program) (ctx : Context) (e : InferError) : CheckError :=
  match ctx.invalid.bind fun i => p.position? i.place with
  | some q => .located path q (.inference e)
  | none => .unlocated path e

/-- The report on a program that was loaded from a file. -/
def checkProgram (palette : Palette) (path : String) (annotate : Bool) (p : Program) : Check :=
  let pass := (Context.fresh (some p.supply)).infer [] p.tree
  let result := match pass.verdict with
    | .inferred t => .ok (reportLines palette annotate p pass.tree t)
    | .failed e => .error (inferenceError path p pass.context e)
    | .stopped k => .error (.unknownKind k)
  ⟨result, pass.trace⟩

/-- The report on what was loaded from a file. -/
def check (palette : Palette) (path : String) (annotate : Bool) :
    Except LoadError Program → Check
  | .ok p => checkProgram palette path annotate p
  | .error (.invalid e) => { result := .error (.located path e.position (.problem e.problem)) }
  | .error e => { result := .error (.load e) }

end LetPoly
