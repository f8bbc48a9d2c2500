import LetPoly.Expr.Printer
import LetPoly.Supply
import LetPoly.Subst

/-!
# The type slots of an expression

Bindings and applications carry slots for types. This file lists them, updates the filled ones,
copies a tree with its slots, and fills the empty ones with fresh variables.

## Main definitions

* `Expr.slots`: the slots of a tree, in the order of its nodes.
* `Expr.mapSlots`: updates every filled slot.
* `Expr.mapSlots?`: the same, refused when a node is foreign.
* `Expr.copy`: the tree again, refused when a node is foreign.
* `Expr.maxVar`: the largest variable in the slots of a tree.
* `Expr.fillSlots`: gives fresh variables to bindings without types.
-/

namespace LetPoly

/-- What a slot belongs to. -/
inductive SlotKind where
  | letVar
  | recFunc
  | recArg
  | application
  | tupleVar
  deriving DecidableEq, Repr

/-- A type slot: what it belongs to, how that is written, and the type in it. -/
structure Slot where
  kind : SlotKind
  label : String
  type : Ty
  deriving DecidableEq, Repr

namespace Binding

/-- Updates the slot if it is filled. -/
def mapSlot (f : Ty → Ty) (b : Binding) : Binding :=
  if b.slot.isAbsent then b else { b with slot := f b.slot }

end Binding

namespace Expr

/-! ### Listing -/

/-- The slots of the top node alone. -/
def ownSlots : Expr → List Slot
  | .letIn b _ _ => [⟨.letVar, b.name, b.slot⟩]
  | .letRec fn args _ _ =>
    ⟨.recFunc, fn.name, fn.slot⟩ :: args.map fun b => ⟨.recArg, b.name, b.slot⟩
  | .app fn args t => [⟨.application, (Expr.app fn args t).render, t⟩]
  | .letTuple vs _ _ => vs.map fun b => ⟨.tupleVar, b.name, b.slot⟩
  | _ => []

/-- The slots of a tree, those of a node before those of its children. -/
def slots (e : Expr) : List Slot :=
  e.places.flatMap fun (_, e) => e.ownSlots

/-- The slots that are filled. -/
def filledSlots (e : Expr) : List Slot :=
  e.slots.filter fun s => !s.type.isAbsent

/-- The largest variable in the slots, or -1 if there is none above that. -/
def maxVar (e : Expr) : Int :=
  (e.slots.flatMap fun s => s.type.vars).foldl max (-1)

/-! ### Updating and copying -/

mutual

/-- Updates every filled slot of a tree. -/
def mapSlots (f : Ty → Ty) : Expr → Expr
  | .absent => .absent
  | .unit => .unit
  | .bool b => .bool b
  | .int n => .int n
  | .var x => .var x
  | .not e => .not (e.mapSlots f)
  | .neg e => .neg (e.mapSlots f)
  | .arith op l r => .arith op (l.mapSlots f) (r.mapSlots f)
  | .eq l r => .eq (l.mapSlots f) (r.mapSlots f)
  | .le l r => .le (l.mapSlots f) (r.mapSlots f)
  | .ite c t e => .ite (c.mapSlots f) (t.mapSlots f) (e.mapSlots f)
  | .letIn b v e => .letIn (b.mapSlot f) (v.mapSlots f) (e.mapSlots f)
  | .letRec fn args body rest =>
    .letRec (fn.mapSlot f) (args.map (·.mapSlot f)) (body.mapSlots f) (rest.mapSlots f)
  | .app fn args t =>
    .app (fn.mapSlots f) (mapSlotsAll f args) (if t.isAbsent then t else f t)
  | .tuple es => .tuple (mapSlotsAll f es)
  | .letTuple vs v e => .letTuple (vs.map (·.mapSlot f)) (v.mapSlots f) (e.mapSlots f)
  | .foreign k => .foreign k

/-- Updates every filled slot of a list of trees. -/
def mapSlotsAll (f : Ty → Ty) : List Expr → List Expr
  | [] => []
  | e :: es => e.mapSlots f :: mapSlotsAll f es

end

/-- Updates every filled slot, unless a node is foreign. -/
def mapSlots? (e : Expr) (f : Ty → Ty) : Except UnknownKind Expr :=
  match e.unknown? with
  | some k => .error k
  | none => .ok (e.mapSlots f)

mutual

/-- The tree again, node by node, unless one of them is foreign. The arguments of an application
are looked at before its function. -/
def copy : Expr → Except UnknownKind Expr
  | .absent => .ok .absent
  | .unit => .ok .unit
  | .bool b => .ok (.bool b)
  | .int n => .ok (.int n)
  | .var x => .ok (.var x)
  | .not e => do return .not (← e.copy)
  | .neg e => do return .neg (← e.copy)
  | .arith op l r => do
    let l ← l.copy
    let r ← r.copy
    return .arith op l r
  | .eq l r => do
    let l ← l.copy
    let r ← r.copy
    return .eq l r
  | .le l r => do
    let l ← l.copy
    let r ← r.copy
    return .le l r
  | .ite c t f => do
    let c ← c.copy
    let t ← t.copy
    let f ← f.copy
    return .ite c t f
  | .letIn b v e => do
    let v ← v.copy
    let e ← e.copy
    return .letIn b v e
  | .letRec fn args body rest => do
    let body ← body.copy
    let rest ← rest.copy
    return .letRec fn args body rest
  | .app fn args t => do
    let args ← copyAll args
    let fn ← fn.copy
    return .app fn args t
  | .tuple es => do return .tuple (← copyAll es)
  | .letTuple vs v e => do
    let v ← v.copy
    let e ← e.copy
    return .letTuple vs v e
  | .foreign name => .error ⟨name⟩

/-- A list of trees again, unless a node of one of them is foreign. -/
def copyAll : List Expr → Except UnknownKind (List Expr)
  | [] => .ok []
  | e :: es => do
    let e ← e.copy
    let es ← copyAll es
    return e :: es

end

/-! ### Filling -/

/-- Puts the given variables into the slots of bindings, in order. -/
def fillWith (bs : List Binding) (vs : List Int) : List Binding :=
  List.zipWith (fun b v => { b with slot := .var v }) bs vs

/-- Gives fresh variables to a group of bindings none of which has a type. A group in which some
slot is filled is left as it is. -/
def fillGroup (bs : List Binding) (g : Supply) : List Binding × Supply :=
  if bs.all (·.slot.isAbsent) then
    let (vs, g) := g.freshList bs.length
    (fillWith bs vs, g)
  else (bs, g)

mutual

/-- Gives fresh variables to the bindings of a tree, those inside a binding expression before its
own. A recursive function and its arguments form one group, and so do the names of a tuple. -/
def fillSlots : Expr → Supply → Expr × Supply
  | .absent, g => (.absent, g)
  | .unit, g => (.unit, g)
  | .bool b, g => (.bool b, g)
  | .int n, g => (.int n, g)
  | .var x, g => (.var x, g)
  | .not e, g =>
    let (e, g) := e.fillSlots g
    (.not e, g)
  | .neg e, g =>
    let (e, g) := e.fillSlots g
    (.neg e, g)
  | .arith op l r, g =>
    let (l, g) := l.fillSlots g
    let (r, g) := r.fillSlots g
    (.arith op l r, g)
  | .eq l r, g =>
    let (l, g) := l.fillSlots g
    let (r, g) := r.fillSlots g
    (.eq l r, g)
  | .le l r, g =>
    let (l, g) := l.fillSlots g
    let (r, g) := r.fillSlots g
    (.le l r, g)
  | .ite c t f, g =>
    let (c, g) := c.fillSlots g
    let (t, g) := t.fillSlots g
    let (f, g) := f.fillSlots g
    (.ite c t f, g)
  | .letIn b v e, g =>
    let (v, g) := v.fillSlots g
    let (e, g) := e.fillSlots g
    if b.slot.isAbsent then
      (.letIn { b with slot := .var g.fresh.1 } v e, g.fresh.2)
    else (.letIn b v e, g)
  | .letRec fn args body rest, g =>
    let (body, g) := body.fillSlots g
    let (rest, g) := rest.fillSlots g
    match fillGroup (fn :: args) g with
    | (fn :: args, g) => (.letRec fn args body rest, g)
    | ([], g) => (.letRec fn args body rest, g)
  | .app fn args t, g =>
    let (fn, g) := fn.fillSlots g
    let (args, g) := fillSlotsAll args g
    (.app fn args t, g)
  | .tuple es, g =>
    let (es, g) := fillSlotsAll es g
    (.tuple es, g)
  | .letTuple vs v e, g =>
    let (v, g) := v.fillSlots g
    let (e, g) := e.fillSlots g
    let (vs, g) := fillGroup vs g
    (.letTuple vs v e, g)
  | .foreign k, g => (.foreign k, g)

/-- Gives fresh variables to the bindings of a list of trees, in order. -/
def fillSlotsAll : List Expr → Supply → List Expr × Supply
  | [], g => ([], g)
  | e :: es, g =>
    let (e, g) := e.fillSlots g
    let (es, g) := fillSlotsAll es g
    (e :: es, g)

end

end Expr

end LetPoly
