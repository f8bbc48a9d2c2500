import LetPoly.Yaml.Node

/-!
# Reading a document character by character

A cursor is what is left of a document and the position of its first character. Before reading
starts, every line end other than the two Unicode separators becomes a line feed, so that one
character is one step everywhere.

## Main definitions

* `Yaml.isAllowed`: the characters a document may hold.
* `Yaml.isBlank`, `Yaml.isBreak`, `Yaml.isGap`, `Yaml.endsWord`: what separates words.
* `Yaml.Cursor`, `Cursor.ofText?`: the start of a document.
* `Cursor.skip`, `Cursor.skipWhile`, `Cursor.takeWhile`, `Cursor.endLine?`: steps through it.
* `Yaml.isMarker`: do three dashes or dots at the start of a line end a document here?
-/

namespace LetPoly.Yaml

open Text (Position)

/-! ### Characters -/

/-- May the character stand in a document? Most controls may not. -/
def isAllowed (c : Char) : Bool :=
  let n := c.toNat
  n = 0x9 || n = 0xa || n = 0xd || (0x20 ≤ n && n ≤ 0x7e) || n = 0x85 ||
    (0xa0 ≤ n && n ≤ 0xfffd) || 0x10000 ≤ n

/-- A mark of the byte order, which says nothing about the text. -/
def isByteOrderMark (c : Char) : Bool :=
  c.toNat = 0xfeff

/-- A space or a tabulator. -/
def isBlank (c : Char) : Bool :=
  c = ' ' || c = '\t'

/-- The end of a line. -/
def isBreak (c : Char) : Bool :=
  c = '\n' || c.toNat = 0x2028 || c.toNat = 0x2029

/-- A blank or the end of a line. -/
def isGap (c : Char) : Bool :=
  isBlank c || isBreak c

/-- A letter, a digit, a dash or an underscore. -/
def isWordChar (c : Char) : Bool :=
  c.isAlphanum || c = '-' || c = '_'

/-- Does a word end before this text? -/
def endsWord : List Char → Bool
  | [] => true
  | c :: _ => isGap c

/-- Is this the end of a line? -/
def endsLine : List Char → Bool
  | [] => true
  | c :: _ => isBreak c

/-- The value of a decimal digit. -/
def digit? (c : Char) : Option Nat :=
  if c.isDigit then some (c.toNat - '0'.toNat) else none

/-- The value of a hexadecimal digit. -/
def hexDigit? (c : Char) : Option Nat :=
  if c.isDigit then some (c.toNat - '0'.toNat)
  else if 'a' ≤ c ∧ c ≤ 'f' then some (c.toNat - 'a'.toNat + 10)
  else if 'A' ≤ c ∧ c ≤ 'F' then some (c.toNat - 'A'.toNat + 10)
  else none

/-- The text with a line feed for each line end of one or two characters. -/
def unifyBreaks : List Char → List Char
  | '\r' :: '\n' :: cs => '\n' :: unifyBreaks cs
  | c :: cs => (if c = '\r' || c.toNat = 0x85 then '\n' else c) :: unifyBreaks cs
  | [] => []

/-! ### Cursors -/

/-- The position behind a character. -/
def advance (p : Position) (c : Char) : Position :=
  if isBreak c then p.nextLine else p.nextColumn

/-- What is left of a document, with the position of its first character. -/
structure Cursor where
  rest : List Char
  position : Position := {}
  deriving Inhabited

/-- The cursor behind the leading characters of a text that satisfy `p`. -/
def skipWhileFrom (p : Char → Bool) : List Char → Position → Cursor
  | [], q => ⟨[], q⟩
  | c :: cs, q => if p c then skipWhileFrom p cs (advance q c) else ⟨c :: cs, q⟩

namespace Cursor

/-- The start of a document, if it has no character that may not stand there. -/
def ofText? (text : String) : Option Cursor :=
  let chars := match text.toList with
    | c :: cs => if isByteOrderMark c then cs else c :: cs
    | [] => []
  if chars.all isAllowed then some { rest := unifyBreaks chars } else none

/-- The next character. -/
def peek? (c : Cursor) : Option Char :=
  c.rest.head?

/-- The column of the next character. -/
def column (c : Cursor) : Nat :=
  c.position.column

/-- Behind the next character. -/
def skip (c : Cursor) : Cursor :=
  match c.rest with
  | [] => c
  | x :: xs => ⟨xs, advance c.position x⟩

/-- Behind all characters up to the first that does not satisfy `p`. -/
def skipWhile (p : Char → Bool) (c : Cursor) : Cursor :=
  skipWhileFrom p c.rest c.position

/-- The characters up to the first that does not satisfy `p`, and the cursor behind them. -/
def takeWhile (p : Char → Bool) (c : Cursor) : List Char × Cursor :=
  (c.rest.takeWhile p, c.skipWhile p)

/-- Behind the rest of a line in which only a comment may stand. -/
def endLine? (c : Cursor) : Option Cursor :=
  let c := c.skipWhile isBlank
  let c := if c.peek? = some '#' then c.skipWhile (!isBreak ·) else c
  if endsLine c.rest then some c.skip else none

end Cursor

/-- Does a document marker stand here? It is three dashes or three dots in the first column, with a
gap behind them. -/
def isMarker (q : Position) : List Char → Bool
  | '-' :: '-' :: '-' :: cs => q.column = 1 && endsWord cs
  | '.' :: '.' :: '.' :: cs => q.column = 1 && endsWord cs
  | _ => false

end LetPoly.Yaml
