import TreeQuery.Item.Basic
import TreeQuery.Atomic.Cast
/-!
# Conformance of sequences

Whether items are of a type, and what promotion makes of those that are not: nodes and untyped
values are cast, numbers widened, functions given the signature that is asked for. `checkSequence`
enforces a sequence type on a whole sequence, and fails first for its length.
-/

namespace TreeQuery

/-- The function under another signature; itself, if it has a signature that will do. -/
def FunctionItem.coerce (f : FunctionItem) (target : Signature) : Except Error FunctionItem :=
  if f.arity ≠ target.arity then .error (.of (.coercion f.render target))
  else if f.signature.instanceOf target then .ok f
  else .ok (.coerced f.name target f)

namespace Item

def isInstance (forest : Forest) (item : Item) (t : ItemType) : Bool :=
  match item with
  | .atomic v => t.admits v
  | .node n => t.admitsKind (forest.kind n)
  | .function f => t.admitsFunction f.signature

/-- The atomic value of an item. A node has its string value, untyped; a function has none. -/
def atomize (forest : Forest) : Item → Except Error Atomic
  | .atomic v => .ok v
  | .node n => .ok (.untyped (forest.stringValue n))
  | .function f => .error (.of (.notAtomic f.render))

def coercionTrace (f : FunctionItem) (target : Signature) : Trace :=
  { label := ""
    text := "RUNTIME: coerce " ++ f.render ++ " to " ++ target.render
    isRemark := true }

def promote (forest : Forest) (item : Item) (target : ItemType) : Run (Option Item) :=
  match item, target with
  | .node n, .atomic t => .lift ((castText (forest.stringValue n) t).map fun v => some (.atomic v))
  | .atomic v, .atomic t => .lift ((v.promote t).map fun w => w.map .atomic)
  | .function f, .functionOf s => do
    let g ← Logged.lift (f.coerce s)
    if !f.signature.instanceOf s then Logged.write (coercionTrace f s)
    return some (.function g)
  | _, _ => return none

end Item

def atomizeAll (forest : Forest) (items : List Item) : Except Error (List Atomic) :=
  items.mapM (Item.atomize forest)

/-- One item as an item of the target: itself if it is one, else what promotion makes of it. -/
def conformItem (forest : Forest) (target : SeqType) (promote : Bool) (location : Option Location)
    (item : Item) : Run Item :=
  if item.isInstance forest target.item then return item
  else do
    let promoted ← if promote then item.promote forest target.item else pure none
    match promoted with
    | some item => return item
    | none => Logged.fail (.error (.dynamicMismatch item.render target location))

/-- The sequence as one of the target: first its length is checked, then item after item. -/
def checkSequence (forest : Forest) (target : SeqType) (promote : Bool) (location : Option Location)
    (items : List Item) : Run (List Item) :=
  if target.occurrence.admits items.length then
    items.mapM (conformItem forest target promote location)
  else Logged.fail (.error (.dynamicMismatch (renderItemCount items.length) target location))

end TreeQuery
