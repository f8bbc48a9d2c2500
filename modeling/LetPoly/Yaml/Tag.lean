import LetPoly.Yaml.Cursor

/-!
# Tags and directives

A tag names the type of a node. It is a name behind a handle, and the handle stands for the first
part of the full name; a tag in angle brackets is a full name already. A directive before a
document fixes its version or the meaning of a handle.

## Main definitions

* `Yaml.Tag`, `Cursor.tag?`: a tag as it is written.
* `Yaml.Handles`, `Handles.expand?`: the meaning of the handles, and the full name of a tag.
* `Yaml.shortName`: the usual abbreviation of a full name.
* `Yaml.Directive`, `Cursor.directive?`: a directive with its line.
-/

namespace LetPoly.Yaml

open Text (Position)

/-! ### Names in tags -/

/-- The characters of the name in a tag, apart from the percent sign. -/
def isTagChar (c : Char) : Bool :=
  isWordChar c || ";/?:@&=+$.,!~*'()[]".toList.contains c

/-- The number of octets in the encoding of a character that starts with the given one, and the
part of the code point in it. -/
def leadingOctet? (n : Nat) : Option (Nat × Nat) :=
  if n < 0x80 then some (1, n)
  else if 0xc0 ≤ n && n < 0xe0 then some (2, n - 0xc0)
  else if 0xe0 ≤ n && n < 0xf0 then some (3, n - 0xe0)
  else if 0xf0 ≤ n && n < 0xf8 then some (4, n - 0xf0)
  else none

/-- Reads the name in a tag, with the text so far, its last character first. An octet in hexadecimal
follows a percent sign; `left` octets of a character with the leading part `value` are missing. -/
def tagNameFrom : List Char → Position → (left value : Nat) → List Char →
    Option (List Char × Cursor)
  | '%' :: a :: b :: cs, q, left, value, read =>
    let q' := q.nextColumn.nextColumn.nextColumn
    match hexDigit? a, hexDigit? b with
    | some high, some low =>
      let n := 16 * high + low
      match left with
      | 0 =>
        match leadingOctet? n with
        | some (1, m) => tagNameFrom cs q' 0 0 (Char.ofNat m :: read)
        | some (k + 1, m) => tagNameFrom cs q' k m read
        | _ => none
      | k + 1 =>
        if 0x80 ≤ n && n < 0xc0 then
          let m := 64 * value + (n - 0x80)
          if k = 0 then tagNameFrom cs q' 0 0 (Char.ofNat m :: read)
          else tagNameFrom cs q' k m read
        else none
    | _, _ => none
  | c :: cs, q, left, value, read =>
    if c = '%' || left ≠ 0 then none
    else if isTagChar c then tagNameFrom cs (advance q c) left value (c :: read)
    else some (read.reverse, ⟨c :: cs, q⟩)
  | [], q, left, _, read => if left = 0 then some (read.reverse, ⟨[], q⟩) else none

/-- The name in a tag. -/
def Cursor.tagName? (c : Cursor) : Option (List Char × Cursor) :=
  tagNameFrom c.rest c.position 0 0 []

/-! ### Tags -/

/-- A tag as it is written; one without a handle is a full name. -/
structure Tag where
  handle : String
  name : String

/-- What looks like a handle here: an exclamation mark, a word, and perhaps a second mark. -/
def Cursor.handle? (c : Cursor) : Option (List Char × Cursor) :=
  if c.peek? = some '!' then
    let (word, c) := c.skip.takeWhile isWordChar
    if c.peek? = some '!' then some ('!' :: word ++ ['!'], c.skip) else some ('!' :: word, c)
  else none

/-- Is the text a handle with two marks? -/
def isFullHandle (handle : List Char) : Bool :=
  1 < handle.length && handle.getLast? = some '!'

/-- The tag that starts here. -/
def Cursor.tagBody? (c : Cursor) : Option (Tag × Cursor) :=
  if c.skip.peek? = some '<' then do
    let (name, c) ← c.skip.skip.tagName?
    if name.isEmpty || c.peek? ≠ some '>' then none
    else return (⟨"", String.ofList name⟩, c.skip)
  else do
    let (handle, c) ← c.handle?
    let (name, c) ← c.tagName?
    if isFullHandle handle then
      if name.isEmpty then none else return (⟨String.ofList handle, String.ofList name⟩, c)
    else
      let name := handle.drop 1 ++ name
      if name.isEmpty then return (⟨"", "!"⟩, c) else return (⟨"!", String.ofList name⟩, c)

/-- The tag that starts here, with a gap behind it. -/
def Cursor.tag? (c : Cursor) : Option (Tag × Cursor) := do
  let (tag, c) ← c.tagBody?
  if endsWord c.rest then some (tag, c) else none

/-- What each handle stands for. -/
abbrev Handles := List (String × String)

/-- The start of the names of the usual types. -/
def commonName : String := "tag:yaml.org,2002:"

/-- The handles that need no directive. -/
def Handles.common : Handles :=
  [("!", "!"), ("!!", commonName)]

/-- The full name of a tag, if its handle is known. -/
def Handles.expand? (handles : Handles) (tag : Tag) : Option String :=
  if tag.handle.isEmpty then some tag.name
  else (handles.lookup tag.handle).map (· ++ tag.name)

/-- A full name with two exclamation marks for the start of the names of the usual types. -/
def shortName (name : String) : String :=
  if commonName.toList.isPrefixOf name.toList then
    "!!" ++ String.ofList (name.toList.drop commonName.length)
  else name

/-! ### Directives -/

/-- A directive. -/
inductive Directive where
  | version (major minor : Nat)
  | handle (handle expansion : String)

/-- A number of one or two digits. -/
def Cursor.versionPart? (c : Cursor) : Option (Nat × Cursor) :=
  let (digits, c) := c.takeWhile Char.isDigit
  if digits.isEmpty || 2 < digits.length then none
  else some (digits.foldl (fun n d => 10 * n + (digit? d).getD 0) 0, c)

/-- The directive after a percent sign, up to the end of its line. -/
def Cursor.directive? (c : Cursor) : Option (Directive × Cursor) := do
  let (name, c) := c.takeWhile isWordChar
  if !endsWord c.rest then none
  else if name = "YAML".toList then
    let (major, c) ← (c.skipWhile isBlank).versionPart?
    if c.peek? ≠ some '.' then none
    else
      let (minor, c) ← c.skip.versionPart?
      return (.version major minor, ← c.endLine?)
  else if name = "TAG".toList then
    let (handle, c) ← (c.skipWhile isBlank).handle?
    if !(isFullHandle handle || handle.length = 1) || !(c.peek?.any isBlank) then none
    else
      let (expansion, c) ← (c.skipWhile isBlank).tagName?
      if expansion.isEmpty || !endsWord c.rest then none
      else return (.handle (String.ofList handle) (String.ofList expansion), ← c.endLine?)
  else none

end LetPoly.Yaml
