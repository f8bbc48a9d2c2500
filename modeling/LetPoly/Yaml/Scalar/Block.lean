import LetPoly.Yaml.Cursor

/-!
# Block scalars

A block scalar is the indented text below its header. The header may fix the indentation, and what
becomes of the line ends behind the text. A literal text is kept line by line; in a folded one a
line end between two lines that start without a blank becomes a space.

## Main definitions

* `Yaml.Chomp`, `Yaml.Header`, `Cursor.header?`: the header.
* `Cursor.block?`: the whole scalar, from behind its indicator.
-/

namespace LetPoly.Yaml

open Text (Position)

/-! ### Headers -/

/-- What becomes of the line ends behind the text. -/
inductive Chomp where
  /-- The first one is kept. -/
  | clip
  /-- None is kept. -/
  | strip
  /-- All are kept. -/
  | keep

/-- What the header says; an increment of zero leaves the indentation to the text. -/
structure Header where
  chomp : Chomp
  increment : Nat

/-- The indicator for the line ends, if there is one. -/
def Cursor.chomp (c : Cursor) : Option Chomp × Cursor :=
  match c.peek? with
  | some '+' => (some .keep, c.skip)
  | some '-' => (some .strip, c.skip)
  | _ => (none, c)

/-- The indicator for the indentation, or zero. A written zero is not allowed. -/
def Cursor.increment? (c : Cursor) : Option (Nat × Cursor) :=
  match c.peek?.bind digit? with
  | some 0 => none
  | some n => some (n, c.skip)
  | none => some (0, c)

/-- The header with its line: the indicators in any order, blanks and a comment. -/
def Cursor.header? (c : Cursor) : Option (Header × Cursor) := do
  let (before, c) := c.chomp
  let (increment, c) ← c.increment?
  let (chomp, c) := if before.isSome then (before, c) else c.chomp
  return (⟨chomp.getD .clip, increment⟩, ← c.endLine?)

/-! ### Text -/

/-- The indentation that a text shows: the deepest of its leading empty lines and its first line
with a character. No tabulator may stand before that character. -/
def shownIndent? : List Char → (column deepest : Nat) → Option Nat
  | [], column, deepest => some (max column deepest)
  | c :: cs, column, deepest =>
    if c = ' ' then shownIndent? cs (column + 1) deepest
    else if c = '\t' then none
    else if isBreak c then shownIndent? cs 0 (max column deepest)
    else some (max column deepest)

/-- The text of a block scalar as it is read, last characters first. -/
structure BlockText where
  read : List Char := []
  /-- The end of the last line with text. -/
  lineEnd : Option Char := none
  /-- The ends of the empty lines after that. -/
  breaks : List Char := []
  /-- Did the last line with text start with a blank? -/
  afterBlank : Bool := false

namespace BlockText

/-- A new line with text starts, with the given character. -/
def startLine (literal : Bool) (c : Char) (t : BlockText) : BlockText :=
  let folds := !literal && !t.afterBlank && !isBlank c && t.lineEnd = some '\n'
  let joint := if folds then (if t.breaks.isEmpty then [' '] else []) else t.lineEnd.toList
  { read := c :: (t.breaks ++ joint ++ t.read), afterBlank := isBlank c }

/-- The finished text. -/
def finish (chomp : Chomp) (t : BlockText) : String :=
  let chars := match chomp with
    | .strip => t.read
    | .clip => t.lineEnd.toList ++ t.read
    | .keep => t.breaks ++ t.lineEnd.toList ++ t.read
  String.ofList chars.reverse

end BlockText

/-- Reads lines that are indented by at least `indent` spaces; `inLine` tells whether the
indentation of the current line is behind. -/
def blockFrom (literal : Bool) (indent : Nat) :
    List Char → Position → Bool → BlockText → Option (BlockText × Cursor)
  | [], q, _, t => some (t, ⟨[], q⟩)
  | c :: cs, q, true, t =>
    if isBreak c then
      blockFrom literal indent cs (advance q c) false { t with lineEnd := some c }
    else blockFrom literal indent cs (advance q c) true { t with read := c :: t.read }
  | c :: cs, q, false, t =>
    if isBreak c then
      blockFrom literal indent cs (advance q c) false { t with breaks := c :: t.breaks }
    else if indent < q.column then
      blockFrom literal indent cs (advance q c) true (t.startLine literal c)
    else if c = ' ' then blockFrom literal indent cs (advance q c) false t
    else if c = '\t' then none
    else some (t, ⟨c :: cs, q⟩)

/-- The block scalar with its header here, inside a block in the column `parent` (zero for none). -/
def Cursor.block? (literal : Bool) (parent : Nat) (c : Cursor) : Option (String × Cursor) := do
  let (header, c) ← c.header?
  let indent ←
    if 0 < header.increment then some (parent - 1 + header.increment)
    else (shownIndent? c.rest 0 0).map fun shown => max (max shown parent) 1
  let (text, c) ← blockFrom literal indent c.rest c.position false {}
  return (text.finish header.chomp, c)

end LetPoly.Yaml
