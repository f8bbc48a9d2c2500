import LetPoly.Yaml.Node
import LetPoly.Yaml.Scalar.Resolve
import LetPoly.Yaml.Scan

/-!
# The tree of a document

The first document of a text, as a tree. Where a node is missing (behind a dash or a colon, or
behind a tag) there is an empty scalar. Text behind the first document is not looked at, apart from
the tokens next to it.

## Main definitions

* `Yaml.Build`: reading nodes from tokens, with the names that were given to nodes.
* `Yaml.node?` and its companions: the kinds of collections.
* `Yaml.Reading`, `Yaml.read`: the first document of a text.
-/

namespace LetPoly.Yaml

open Text (Position)

/-! ### State -/

/-- The state of building a tree. -/
structure Builder where
  tokens : List Token
  handles : Handles := Handles.common
  /-- The named nodes in the order of their names; a node that is not complete is missing. -/
  anchors : Array (String × Option Node) := #[]

/-- Reading of tokens, which may fail. -/
abbrev Build := StateT Builder Option

namespace Build

/-- The next token. -/
def peek : Build Token := do
  match (← get).tokens with
  | [] => failure
  | t :: _ => return t

/-- Goes on behind the next token. -/
def skip : Build Unit :=
  modify fun b => { b with tokens := b.tokens.tail }

/-- Takes the next token if it is of a kind. -/
def accept (p : Token.Kind → Bool) : Build Bool := do
  if p (← peek).kind then
    skip
    return true
  else return false

/-- The node with a name: the last one that was given it. -/
def named (name : String) : Build Node := do
  match (← get).anchors.toList.reverse.lookup name with
  | some (some n) => return n
  | _ => failure

/-- Builds a node that gets a name before the names inside of it. -/
def naming (anchor : Option String) (build : Build Node) : Build Node := do
  match anchor with
  | none => build
  | some name =>
    let index := (← get).anchors.size
    modify fun b => { b with anchors := b.anchors.push (name, none) }
    let n ← build
    modify fun b => { b with anchors := b.anchors.setIfInBounds index (name, some n) }
    return n

end Build

/-! ### Kinds of tokens -/

namespace Token.Kind

def isEntry : Token.Kind → Bool
  | .entry => true
  | _ => false

def isBlockEnd : Token.Kind → Bool
  | .blockEnd => true
  | _ => false

def isKey : Token.Kind → Bool
  | .key _ => true
  | _ => false

def isValue : Token.Kind → Bool
  | .value => true
  | _ => false

def isComma : Token.Kind → Bool
  | .comma => true
  | _ => false

def isSequenceEnd : Token.Kind → Bool
  | .flowSequenceEnd => true
  | _ => false

def isMappingEnd : Token.Kind → Bool
  | .flowMappingEnd => true
  | _ => false

def isDocumentStart : Token.Kind → Bool
  | .documentStart => true
  | _ => false

/-- Does the token stand outside of documents, so that the one before it has no content? -/
def endsDocument : Token.Kind → Bool
  | .directive _ | .documentStart | .documentEnd | .streamEnd => true
  | _ => false

/-- Does the token end a key or a value of a block mapping? -/
def endsBlockField (k : Token.Kind) : Bool :=
  k.isKey || k.isValue || k.isBlockEnd

end Token.Kind

/-! ### Nodes -/

/-- A scalar: a tag that says something decides its type, else a text in quotes or a block is a
string, and a plain one is what it looks like. -/
def scalarNode (q : Position) (tag : Option String) (plain : Bool) (text : String) : Node :=
  let inferred :=
    if !plain then "!!str" else if text = "<<" then "!!merge" else (Scalar.ofText text).tag
  match tag with
  | some t => .scalar q (if t = "!" then inferred else shortName t) text
  | none => .scalar q inferred text

/-- A missing node. -/
def emptyNode (q : Position) : Node :=
  scalarNode q none true ""

/-- What stands before a node: an anchor and a tag, in any order, and the position of the first. -/
structure Properties where
  position : Position
  anchor : Option String := none
  tag : Option String := none

/-- Reads an anchor, if there is one. -/
def anchor? : Build (Option String) := do
  match (← Build.peek).kind with
  | .anchor name =>
    Build.skip
    return some name
  | _ => return none

/-- Reads a tag, if there is one, as its full name. -/
def tag? : Build (Option Tag) := do
  match (← Build.peek).kind with
  | .tag tag =>
    Build.skip
    return some tag
  | _ => return none

/-- Reads what stands before a node. -/
def properties : Build Properties := do
  let position := (← Build.peek).position
  let before ← anchor?
  let tag ← tag?
  let anchor ← if before.isNone && tag.isSome then anchor? else pure before
  match tag with
  | none => return { position, anchor }
  | some t =>
    match (← get).handles.expand? t with
    | some name => return { position, anchor, tag := some name }
    | none => failure

mutual

/-- The node that starts with the next token. Blocks may stand outside of flow collections only, and
a block sequence may share the column of a mapping around it where `indentless` says so. -/
def node? : (fuel : Nat) → (block indentless : Bool) → Build Node
  | 0, _, _ => failure
  | fuel + 1, block, indentless => do
    let first ← Build.peek
    match first.kind with
    | .alias name =>
      Build.skip
      return .alias first.position name (← Build.named name)
    | _ =>
      let p ← properties
      Build.naming p.anchor do
        match (← Build.peek).kind with
        | .scalar plain text =>
          Build.skip
          return scalarNode p.position p.tag plain text
        | .flowSequence =>
          Build.skip
          return .sequence p.position (← flowItems? fuel true)
        | .flowMapping =>
          Build.skip
          return .mapping p.position (← flowEntries? fuel true)
        | kind =>
          if indentless && kind.isEntry then
            return .sequence p.position (← indentlessItems? fuel)
          match block, kind with
          | true, .blockSequence =>
            Build.skip
            return .sequence p.position (← blockItems? fuel)
          | true, .blockMapping =>
            Build.skip
            return .mapping p.position (← blockEntries? fuel)
          | _, _ =>
            if p.anchor.isSome || p.tag.isSome then return scalarNode p.position p.tag true ""
            else failure

/-- The node that starts with the next token, or a missing one before a token that ends it. -/
def nodeUnless? (fuel : Nat) (ends : Token.Kind → Bool) (q : Position) (block indentless : Bool) :
    Build Node := do
  match fuel with
  | 0 => failure
  | fuel + 1 => if ends (← Build.peek).kind then return emptyNode q else node? fuel block indentless

/-- The items of a block sequence, with its end. -/
def blockItems? : (fuel : Nat) → Build (List Node)
  | 0 => failure
  | fuel + 1 => do
    let t ← Build.peek
    match t.kind with
    | .entry =>
      Build.skip
      let item ← nodeUnless? fuel (fun k => k.isEntry || k.isBlockEnd) t.next true false
      return item :: (← blockItems? fuel)
    | .blockEnd =>
      Build.skip
      return []
    | _ => failure

/-- The items of a block sequence in the column of the mapping around it. -/
def indentlessItems? : (fuel : Nat) → Build (List Node)
  | 0 => failure
  | fuel + 1 => do
    let t ← Build.peek
    match t.kind with
    | .entry =>
      Build.skip
      let item ← nodeUnless? fuel (fun k => k.isEntry || k.endsBlockField) t.next true false
      return item :: (← indentlessItems? fuel)
    | _ => return []

/-- The entries of a block mapping, with its end. -/
def blockEntries? : (fuel : Nat) → Build (List (Node × Node))
  | 0 => failure
  | fuel + 1 => do
    let t ← Build.peek
    match t.kind with
    | .key _ =>
      Build.skip
      let key ← nodeUnless? fuel Token.Kind.endsBlockField t.next true true
      let v ← Build.peek
      let value ← match v.kind with
        | .value => do
          Build.skip
          nodeUnless? fuel Token.Kind.endsBlockField v.next true true
        | _ => pure (emptyNode v.position)
      return (key, value) :: (← blockEntries? fuel)
    | .blockEnd =>
      Build.skip
      return []
    | _ => failure

/-- The items of a flow sequence, with its end; before all but the first stands a comma. -/
def flowItems? : (fuel : Nat) → (first : Bool) → Build (List Node)
  | 0, _ => failure
  | fuel + 1, first => do
    if ← Build.accept Token.Kind.isSequenceEnd then return []
    if !first then
      unless ← Build.accept Token.Kind.isComma do failure
    let t ← Build.peek
    match t.kind with
    | .flowSequenceEnd =>
      Build.skip
      return []
    | .key _ =>
      Build.skip
      let entry ← flowPair? fuel
      return .mapping t.position [entry] :: (← flowItems? fuel false)
    | _ =>
      let item ← node? fuel false false
      return item :: (← flowItems? fuel false)

/-- A single entry of a mapping inside a flow sequence. A missing key takes the token that ends
it. -/
def flowPair? : (fuel : Nat) → Build (Node × Node)
  | 0 => failure
  | fuel + 1 => do
    let t ← Build.peek
    let key ←
      if t.kind.isValue || t.kind.isComma || t.kind.isSequenceEnd then do
        Build.skip
        pure (emptyNode t.position.nextColumn)
      else node? fuel false false
    let v ← Build.peek
    match v.kind with
    | .value =>
      Build.skip
      let value ← nodeUnless? fuel (fun k => k.isComma || k.isSequenceEnd) v.position false false
      return (key, value)
    | _ => return (key, emptyNode v.position)

/-- The entries of a flow mapping, with its end; before all but the first stands a comma. -/
def flowEntries? : (fuel : Nat) → (first : Bool) → Build (List (Node × Node))
  | 0, _ => failure
  | fuel + 1, first => do
    if ← Build.accept Token.Kind.isMappingEnd then return []
    if !first then
      unless ← Build.accept Token.Kind.isComma do failure
    match (← Build.peek).kind with
    | .flowMappingEnd =>
      Build.skip
      return []
    | .key _ =>
      Build.skip
      let t ← Build.peek
      let key ← nodeUnless? fuel (fun k => k.isValue || k.isComma || k.isMappingEnd) t.position
        false false
      let v ← Build.peek
      match v.kind with
      | .value =>
        Build.skip
        let t ← Build.peek
        let value ← nodeUnless? fuel (fun k => k.isComma || k.isMappingEnd) t.position false false
        return (key, value) :: (← flowEntries? fuel false)
      | _ => return (key, emptyNode v.position) :: (← flowEntries? fuel false)
    | _ =>
      let key ← node? fuel false false
      return (key, emptyNode (← Build.peek).position) :: (← flowEntries? fuel false)

end

/-! ### Documents -/

/-- Reads the directives before a document: one version at most, which must be 1.1, and one meaning
at most for each handle. -/
def directives? : (fuel : Nat) → (version : Bool) → Handles → Build Handles
  | 0, _, _ => failure
  | fuel + 1, version, given => do
    match (← Build.peek).kind with
    | .directive (.version major minor) =>
      if version || major ≠ 1 || minor ≠ 1 then failure
      Build.skip
      directives? fuel true given
    | .directive (.handle handle expansion) =>
      if (given.lookup handle).isSome then failure
      Build.skip
      directives? fuel version ((handle, expansion) :: given)
    | _ => return given

/-- What is found at the start of a text. -/
inductive Reading where
  /-- The text breaks the rules of the format. -/
  | malformed
  /-- There is no document. -/
  | empty
  /-- There is a document, and this is its tree. -/
  | document (root : Node)
  deriving Inhabited

/-- The first document, or nothing if there is none. -/
def document? (fuel : Nat) : Build (Option Node) := do
  Build.skip
  let first ← Build.peek
  match first.kind with
  | .streamEnd => return none
  | .directive _ | .documentStart =>
    let given ← directives? fuel false []
    modify fun b => { b with handles := given ++ Handles.common }
    unless ← Build.accept Token.Kind.isDocumentStart do failure
    let t ← Build.peek
    let root ← nodeUnless? fuel Token.Kind.endsDocument t.position true false
    let _ ← Build.peek
    return some root
  | _ =>
    let root ← node? fuel true false
    let _ ← Build.peek
    return some root

/-- The first document of a text. -/
def read (text : String) : Reading :=
  match Cursor.ofText? text with
  | none => .malformed
  | some c =>
    let tokens := tokens c
    match (document? (4 * tokens.length + 4)).run { tokens } with
    | none => .malformed
    | some (none, _) => .empty
    | some (some root, _) => .document root

end LetPoly.Yaml
