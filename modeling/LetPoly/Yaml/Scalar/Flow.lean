import LetPoly.Yaml.Cursor

/-!
# Plain and quoted scalars

Such scalars may run over several lines. A gap without a line end is kept as it is; of a gap with
line ends the blanks are dropped, one line feed becomes a space, and of several the first is
dropped.

A scalar without quotes ends at a comment, a document marker, a colon before a gap, and, inside
flow collections, at their punctuation. Outside of them it also ends where a line is indented no
further than the block around it. Between single quotes only the quote itself is written in another
way, twice. Between double quotes a backslash starts an escape. A document marker may stand in
neither.

## Main definitions

* `Yaml.Gap`, `Gap.add`: a gap as it is read.
* `Gap.fold`: what stands for it in the scalar's text.
* `Yaml.Plain`, `Cursor.plain?`: a plain scalar and where it ends.
* `Cursor.single?`, `Cursor.double?`: the text between quotes, from behind the opening one.
* `Yaml.Escape`, `Yaml.escape?`: what may follow a backslash.
-/

namespace LetPoly.Yaml

open Text (Position)

/-! ### Gaps between words -/

/-- What was read since the last word of a scalar. -/
inductive Gap where
  /-- Nothing. -/
  | none
  /-- Blanks on one line, the last one first. -/
  | blanks (read : List Char)
  /-- Line ends: the first one, if it counts, and the others, the last one first. -/
  | breaks (first : Option Char) (more : List Char)
  deriving Inhabited

namespace Gap

/-- The gap with one more blank or line end. -/
def add (c : Char) : Gap → Gap
  | .none => if isBreak c then .breaks (some c) [] else .blanks [c]
  | .blanks read => if isBreak c then .breaks (some c) [] else .blanks (c :: read)
  | .breaks first more => if isBreak c then .breaks first (c :: more) else .breaks first more

def isNone : Gap → Bool
  | .none => true
  | _ => false

/-- Does the gap go over the end of a line? -/
def hasBreak : Gap → Bool
  | .breaks _ _ => true
  | _ => false

/-- The text that stands for the gap, its last character first. -/
def fold : Gap → List Char
  | .none => []
  | .blanks read => read
  | .breaks (some '\n') [] => [' ']
  | .breaks (some '\n') more => more
  | .breaks first more => more ++ first.toList

end Gap

/-! ### Plain scalars -/

/-- A plain scalar that was read. -/
structure Plain where
  text : String
  /-- Did the reading go over the end of the scalar's last line? -/
  newLine : Bool
  /-- Behind the scalar and the gap after it. -/
  next : Cursor

/-- Does a character end a plain scalar, given the gap before it and the text after it? -/
def endsPlain (flow : Bool) (indent : Nat) (q : Position) (gap : Gap) (c : Char)
    (cs : List Char) : Bool :=
  (!gap.isNone && (c = '#' || isMarker q (c :: cs) || (!flow && q.column ≤ indent))) ||
    (c = ':' && endsWord cs) ||
    (flow && (c = ',' || c = '?' || c = '[' || c = ']' || c = '{' || c = '}'))

/-- Reads on with the last gap and the text so far, its last character first. A tabulator may not
stand in the indentation. -/
def plainFrom (flow : Bool) (indent : Nat) :
    List Char → Position → Gap → List Char → Option Plain
  | [], q, gap, read => some ⟨String.ofList read.reverse, gap.hasBreak, ⟨[], q⟩⟩
  | c :: cs, q, gap, read =>
    if isGap c then
      if c = '\t' && gap.hasBreak && q.column ≤ indent then none
      else plainFrom flow indent cs (advance q c) (gap.add c) read
    else if endsPlain flow indent q gap c cs then
      some ⟨String.ofList read.reverse, gap.hasBreak, ⟨c :: cs, q⟩⟩
    else plainFrom flow indent cs (advance q c) .none (c :: (gap.fold ++ read))

/-- The plain scalar that starts here. -/
def Cursor.plain? (flow : Bool) (indent : Nat) (c : Cursor) : Option Plain :=
  plainFrom flow indent c.rest c.position .none []

/-! ### Single quotes -/

/-- Reads on with the last gap and the text so far, its last character first. -/
def singleFrom : List Char → Position → Gap → List Char → Option (String × Cursor)
  | [], _, _, _ => none
  | '\'' :: '\'' :: cs, q, gap, read =>
    singleFrom cs q.nextColumn.nextColumn .none ('\'' :: (gap.fold ++ read))
  | c :: cs, q, gap, read =>
    if isGap c then singleFrom cs (advance q c) (gap.add c) read
    else if isMarker q (c :: cs) then none
    else if c = '\'' then some (String.ofList (gap.fold ++ read).reverse, ⟨cs, advance q c⟩)
    else singleFrom cs (advance q c) .none (c :: (gap.fold ++ read))

/-- The text up to a closing single quote. -/
def Cursor.single? (c : Cursor) : Option (String × Cursor) :=
  singleFrom c.rest c.position .none []

/-! ### Double quotes -/

/-- What an escape stands for. -/
inductive Escape where
  /-- A character. -/
  | char (c : Char)
  /-- The character whose code point follows in so many hexadecimal digits. -/
  | code (digits : Nat)

/-- The escape with this character behind the backslash. -/
def escape? : Char → Option Escape
  | '0' => some (.char (Char.ofNat 0x0))
  | 'a' => some (.char (Char.ofNat 0x7))
  | 'b' => some (.char (Char.ofNat 0x8))
  | 't' | '\t' => some (.char '\t')
  | 'n' => some (.char '\n')
  | 'v' => some (.char (Char.ofNat 0xb))
  | 'f' => some (.char (Char.ofNat 0xc))
  | 'r' => some (.char '\r')
  | 'e' => some (.char (Char.ofNat 0x1b))
  | ' ' => some (.char ' ')
  | '"' => some (.char '"')
  | '\'' => some (.char '\'')
  | '\\' => some (.char '\\')
  | 'N' => some (.char (Char.ofNat 0x85))
  | '_' => some (.char (Char.ofNat 0xa0))
  | 'L' => some (.char (Char.ofNat 0x2028))
  | 'P' => some (.char (Char.ofNat 0x2029))
  | 'x' => some (.code 2)
  | 'u' => some (.code 4)
  | 'U' => some (.code 8)
  | _ => none

/-- The character with a code point, if there is one. -/
def charOfCode? (n : Nat) : Option Char :=
  if n.isValidChar then some (Char.ofNat n) else none

/-- What the next character belongs to. -/
inductive QuoteState where
  | text
  /-- It follows a backslash. -/
  | escape
  /-- It is one of the last digits of a code point with the given leading part. -/
  | code (left value : Nat)

/-- Reads on with the last gap and the text so far, its last character first. -/
def doubleFrom : List Char → Position → QuoteState → Gap → List Char → Option (String × Cursor)
  | [], _, _, _, _ => none
  | c :: cs, q, .text, gap, read =>
    if isGap c then doubleFrom cs (advance q c) .text (gap.add c) read
    else if isMarker q (c :: cs) then none
    else if c = '"' then some (String.ofList (gap.fold ++ read).reverse, ⟨cs, advance q c⟩)
    else if c = '\\' then doubleFrom cs (advance q c) .escape .none (gap.fold ++ read)
    else doubleFrom cs (advance q c) .text .none (c :: (gap.fold ++ read))
  | c :: cs, q, .escape, _, read =>
    if isBreak c then doubleFrom cs (advance q c) .text (.breaks .none []) read
    else
      match escape? c with
      | some (.char d) => doubleFrom cs (advance q c) .text .none (d :: read)
      | some (.code n) => doubleFrom cs (advance q c) (.code n 0) .none read
      | none => none
  | c :: cs, q, .code left value, _, read =>
    match hexDigit? c with
    | none => none
    | some d =>
      if 1 < left then doubleFrom cs (advance q c) (.code (left - 1) (16 * value + d)) .none read
      else
        match charOfCode? (16 * value + d) with
        | some x => doubleFrom cs (advance q c) .text .none (x :: read)
        | none => none

/-- The text up to a closing double quote. -/
def Cursor.double? (c : Cursor) : Option (String × Cursor) :=
  doubleFrom c.rest c.position .text .none []

end LetPoly.Yaml
