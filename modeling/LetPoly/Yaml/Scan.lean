import LetPoly.Yaml.Scalar.Block
import LetPoly.Yaml.Scalar.Flow
import LetPoly.Yaml.Token

/-!
# The tokens of a text

Blocks are opened and closed by indentation. A key that is not marked by a question mark is seen
only at the colon behind it, so that every token that may start a key is remembered until the next
one, and the tokens for the key are put in front of it when the colon comes. Such a key must stand
on one line with its colon and be at most 1024 characters long.

## Main definitions

* `Yaml.SimpleKey`: a token that may turn out to start a key.
* `Yaml.Scan`: how far the reading has come.
* `Scan.step?`: one more token, with the block ends before it.
* `Yaml.tokens`: all tokens of a text that a reader of tokens may see.
-/

namespace LetPoly.Yaml

open Text (Position)

/-! ### State -/

/-- A token that may turn out to start a key. -/
structure SimpleKey where
  /-- The number of tokens before it. -/
  token : Nat
  position : Position
  /-- Must it be a key, as it stands in the column of a block? -/
  required : Bool

/-- Is the cursor still near enough for a colon? -/
def SimpleKey.reaches (k : SimpleKey) (q : Position) : Bool :=
  k.position.line = q.line && q.column ≤ k.position.column + 1024

/-- The state of reading. -/
structure Scan where
  cursor : Cursor
  tokens : Array Token := #[]
  /-- The columns of the open blocks, the innermost first. -/
  indents : List Nat := []
  /-- The possible key inside the innermost flow collection, or outside of all. -/
  key : Option SimpleKey := none
  /-- The possible keys around the open flow collections, the innermost first. -/
  outer : List (Option SimpleKey) := []
  /-- May a key start here? -/
  keyAllowed : Bool := true

namespace Scan

/-- How deep collections may be nested. -/
def maxDepth : Nat := 10000

/-- Is a flow collection open? -/
def inFlow (s : Scan) : Bool :=
  !s.outer.isEmpty

/-- The column of the innermost block, or zero. -/
def indent (s : Scan) : Nat :=
  s.indents.head?.getD 0

/-- Adds a token. -/
def emit (s : Scan) (kind : Token.Kind) (q : Position) : Scan :=
  { s with tokens := s.tokens.push ⟨kind, q⟩ }

/-- Adds a token for the next character. -/
def indicator (s : Scan) (kind : Token.Kind) : Scan :=
  { s.emit kind s.cursor.position with cursor := s.cursor.skip }

/-! ### Blocks -/

/-- Closes the blocks that stand behind the given column. -/
def closeBlocks (s : Scan) (column : Nat) (q : Position) : Scan :=
  if s.inFlow then s
  else
    let closed := (s.indents.takeWhile (column < ·)).length
    { s with
      tokens := s.tokens ++ Array.replicate closed ⟨.blockEnd, q⟩
      indents := s.indents.drop closed }

/-- Opens a block in the given column, unless one is open there; its token comes after the first
`index` tokens. -/
def openBlock? (s : Scan) (kind : Token.Kind) (index : Nat) (q : Position) : Option Scan :=
  if s.inFlow || q.column ≤ s.indent then some s
  else if maxDepth ≤ s.indents.length then none
  else some { s with
    tokens := s.tokens.insertIdxIfInBounds index ⟨kind, q⟩
    indents := q.column :: s.indents }

/-! ### Keys -/

/-- Forgets the possible key, which is wrong if it has to be one. -/
def dropKey? (s : Scan) : Option Scan :=
  if s.key.any (·.required) then none else some { s with key := none }

/-- Remembers that a key may start with the next token. -/
def saveKey? (s : Scan) : Option Scan :=
  if s.keyAllowed then do
    let required := !s.inFlow && s.indent = s.cursor.column
    let s ← s.dropKey?
    return { s with key := some ⟨s.tokens.size, s.cursor.position, required⟩ }
  else some s

/-- A new token that may start a key, after which none may start. -/
def word? (s : Scan) : Option Scan :=
  s.saveKey?.map fun s => { s with keyAllowed := false }

/-! ### Gaps and comments -/

/-- Where reading is in the gap between two tokens. -/
inductive Place where
  | line
  /-- Inside a comment. -/
  | comment
  /-- Between two comments with nothing else between them. -/
  | betweenComments

/-- Skips what stands between two tokens. A tabulator is skipped only where no key may start, or
between two comments. Outside of flow collections a new line allows a key. -/
def skipGapFrom (flow : Bool) : List Char → Position → (keyAllowed : Bool) → Place → Cursor × Bool
  | [], q, allowed, _ => (⟨[], q⟩, allowed)
  | c :: cs, q, allowed, .comment =>
    if isBreak c then
      if (cs.dropWhile isGap).head? = some '#' then
        skipGapFrom flow cs (advance q c) allowed .betweenComments
      else skipGapFrom flow cs (advance q c) (allowed || !flow) .line
    else skipGapFrom flow cs (advance q c) allowed .comment
  | c :: cs, q, allowed, .betweenComments =>
    skipGapFrom flow cs (advance q c) allowed (if c = '#' then .comment else .betweenComments)
  | c :: cs, q, allowed, .line =>
    if c = '#' then skipGapFrom flow cs (advance q c) allowed .comment
    else if isBreak c then skipGapFrom flow cs (advance q c) (allowed || !flow) .line
    else if c = ' ' || (c = '\t' && (flow || !allowed)) ||
        (isByteOrderMark c && q.column = 1) then
      skipGapFrom flow cs (advance q c) allowed .line
    else (⟨c :: cs, q⟩, allowed)

/-- Goes on to the next token. -/
def skipGap (s : Scan) : Scan :=
  let (cursor, keyAllowed) :=
    skipGapFrom s.inFlow s.cursor.rest s.cursor.position s.keyAllowed .line
  { s with cursor, keyAllowed }

/-- Skips a comment on the line of the last token. -/
def skipLineComment (s : Scan) : Scan :=
  let c := s.cursor.skipWhile isBlank
  if c.peek? = some '#' then { s with cursor := c.skipWhile (!isBreak ·) } else s

/-! ### Single tokens -/

/-- The start of a flow collection. -/
def openFlow? (s : Scan) (kind : Token.Kind) : Option Scan := do
  let s ← s.saveKey?
  if maxDepth ≤ s.outer.length then none
  else return { s.indicator kind with key := none, outer := s.key :: s.outer, keyAllowed := true }

/-- The end of a flow collection. -/
def closeFlow? (s : Scan) (kind : Token.Kind) : Option Scan := do
  let s := (← s.dropKey?).indicator kind
  match s.outer with
  | [] => return { s with keyAllowed := false }
  | key :: outer => return { s with key, outer, keyAllowed := false }

/-- A comma. -/
def comma? (s : Scan) : Option Scan := do
  return { (← s.dropKey?).indicator .comma with keyAllowed := true }

/-- A dash before an entry. -/
def entry? (s : Scan) : Option Scan := do
  if !s.inFlow && !s.keyAllowed then none
  else
    let s ← s.openBlock? .blockSequence s.tokens.size s.cursor.position
    return { (← s.dropKey?).indicator .entry with keyAllowed := true }

/-- A question mark before a key. -/
def writtenKey? (s : Scan) : Option Scan := do
  if !s.inFlow && !s.keyAllowed then none
  else
    let s ← s.openBlock? .blockMapping s.tokens.size s.cursor.position
    return { (← s.dropKey?).indicator (.key true) with keyAllowed := !s.inFlow }

/-- A colon before a value: the end of the possible key, or else of a written or missing one. -/
def value? (s : Scan) : Option Scan := do
  match s.key with
  | some k =>
    if k.reaches s.cursor.position then
      let s := { s with tokens := s.tokens.insertIdxIfInBounds k.token ⟨.key false, k.position⟩ }
      let s ← s.openBlock? .blockMapping k.token k.position
      return { s.indicator .value with key := none, keyAllowed := false }
    else if k.required then none
    else bare { s with key := none }
  | none => bare s
where
  bare (s : Scan) : Option Scan := do
    if !s.inFlow && !s.keyAllowed then none
    else
      let s ← s.openBlock? .blockMapping s.tokens.size s.cursor.position
      return { s.indicator .value with keyAllowed := !s.inFlow }

/-- The name of an anchor or an alias behind its indicator. -/
def name? (s : Scan) (kind : String → Token.Kind) : Option Scan := do
  let s ← s.word?
  let (name, c) := s.cursor.skip.takeWhile isWordChar
  let ends := endsWord c.rest || c.peek?.any "?:,]\x7d%@\x60".toList.contains
  if name.isEmpty || !ends then none
  else return { s.emit (kind (String.ofList name)) s.cursor.position with cursor := c }

/-- A tag. -/
def tag? (s : Scan) : Option Scan := do
  let s ← s.word?
  let (tag, c) ← s.cursor.tag?
  return { s.emit (.tag tag) s.cursor.position with cursor := c }

/-- A quoted scalar with the given reader for what comes behind the opening quote. -/
def quoted? (s : Scan) (read : Cursor → Option (String × Cursor)) : Option Scan := do
  let s ← s.word?
  let (text, c) ← read s.cursor.skip
  return { s.emit (.scalar false text) s.cursor.position with cursor := c }

/-- A block scalar. -/
def block? (s : Scan) (literal : Bool) : Option Scan := do
  let s ← s.dropKey?
  let (text, c) ← s.cursor.skip.block? literal s.indent
  return { s.emit (.scalar false text) s.cursor.position with cursor := c, keyAllowed := true }

/-- A plain scalar, with a comment on its last line. -/
def plain? (s : Scan) : Option Scan := do
  let s ← s.word?
  let p ← s.cursor.plain? s.inFlow s.indent
  let s := { s.emit (.scalar true p.text) s.cursor.position with cursor := p.next }
  return if p.newLine then { s with keyAllowed := true } else s.skipLineComment

/-- Leaves all blocks for a line that stands outside of documents. -/
def leave? (s : Scan) : Option Scan :=
  (s.closeBlocks 0 s.cursor.position).dropKey?.map fun s => { s with keyAllowed := false }

/-- A directive. -/
def directive? (s : Scan) : Option Scan := do
  let s ← s.leave?
  let (d, c) ← s.cursor.skip.directive?
  return { s.emit (.directive d) s.cursor.position with cursor := c }

/-- A document marker. -/
def marker? (s : Scan) (kind : Token.Kind) : Option Scan := do
  let s ← s.leave?
  return { s.emit kind s.cursor.position with cursor := s.cursor.skip.skip.skip }

/-- The end of the text, as if at the start of a line. -/
def finish? (s : Scan) : Option Scan := do
  let q := if s.cursor.column = 1 then s.cursor.position else s.cursor.position.nextLine
  let s ← { s with cursor := ⟨[], q⟩ }.leave?
  return s.emit .streamEnd q

/-- The characters that cannot start a plain scalar, or only with a word behind them. -/
def indicators : List Char :=
  "-?:,[]\x7b\x7d#&*!|>'\"%@\x60".toList

/-- May a plain scalar start with this character and the text behind it? -/
def startsPlain (flow : Bool) (c : Char) (cs : List Char) : Bool :=
  (!isGap c && !indicators.contains c) ||
    (c = '-' && !(cs.head?.any isBlank)) ||
    (!flow && (c = '?' || c = ':') && !endsWord cs)

/-- The token that starts with the given character and the text behind it. -/
def token? (s : Scan) (c : Char) (cs : List Char) : Option Scan :=
  if c = '[' then (s.openFlow? .flowSequence).map skipLineComment
  else if c = '{' then (s.openFlow? .flowMapping).map skipLineComment
  else if c = ']' then (s.closeFlow? .flowSequenceEnd).map skipLineComment
  else if c = '}' then (s.closeFlow? .flowMappingEnd).map skipLineComment
  else if c = ',' then s.comma?.map skipLineComment
  else if c = '-' && endsWord cs then s.entry?
  else if c = '?' && (s.inFlow || endsWord cs) then s.writtenKey?.map skipLineComment
  else if c = ':' && (s.inFlow || endsWord cs) then s.value?.map skipLineComment
  else if c = '*' then (s.name? .alias).map skipLineComment
  else if c = '&' then (s.name? .anchor).map skipLineComment
  else if c = '!' then s.tag?.map skipLineComment
  else if c = '|' && !s.inFlow then s.block? true
  else if c = '>' && !s.inFlow then s.block? false
  else if c = '\'' then (s.quoted? Cursor.single?).map skipLineComment
  else if c = '"' then (s.quoted? Cursor.double?).map skipLineComment
  else if startsPlain s.inFlow c cs then s.plain?
  else none

/-- Reads one more token, with the ends of the blocks before it. -/
def step? (s : Scan) : Option Scan :=
  let before := s.cursor.position
  let s := s.skipGap
  let s := s.closeBlocks s.cursor.column before
  match s.cursor.rest with
  | [] => s.finish?
  | c :: cs =>
    if s.cursor.column = 1 && c = '%' then s.directive?
    else if isMarker s.cursor.position (c :: cs) then
      s.marker? (if c = '-' then .documentStart else .documentEnd)
    else s.token? c cs

/-! ### All tokens -/

/-- Is the last token the end of the stream? -/
def ended (s : Scan) : Bool :=
  match s.tokens.back? with
  | some ⟨.streamEnd, _⟩ => true
  | _ => false

/-- Reads at most `fuel` more tokens; with them comes whether the end was reached. -/
def run : Nat → Scan → Scan × Bool
  | 0, s => (s, false)
  | fuel + 1, s =>
    match s.step? with
    | none => (s, false)
    | some s => if s.ended then (s, true) else run fuel s

/-- The numbers of the tokens before which key tokens may still have to be put. -/
def openKeys (s : Scan) : List Nat :=
  (s.key :: s.outer).filterMap fun key =>
    key.bind fun k =>
      if k.required || k.reaches s.cursor.position then some k.token else none

/-- The tokens that may be seen although there is no next one: two more tokens must have been read,
and it must be clear whether a key starts there. -/
def settled (s : Scan) : List Token :=
  s.tokens.toList.take (s.openKeys.foldl min (s.tokens.size - 2))

end Scan

/-- The tokens of a text. If it goes wrong somewhere they end before that. -/
def tokens (c : Cursor) : List Token :=
  let start : Scan := { cursor := c, tokens := #[⟨.streamStart, c.position⟩] }
  match start.run (c.rest.length + 1) with
  | (s, true) => s.tokens.toList
  | (s, false) => s.settled

end LetPoly.Yaml
