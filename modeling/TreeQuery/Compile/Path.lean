import TreeQuery.Compile.Scope
import TreeQuery.Expr.Dependency
/-!
# Rules for paths and maps

Nested relative paths are flattened, a lone step needs no path, and the context item in front of a
map is left out. What has an empty operand is empty, unless an effect would be lost.
-/

namespace TreeQuery

def flattenSteps (scope : Scope) : List Expr → List Expr
  | [] => []
  | e :: es =>
    match e.form with
    | .relativePath inner => (if scope.optimize then inner else [e]) ++ flattenSteps scope es
    | _ => e :: flattenSteps scope es

def lastItemType (es : List Expr) : ItemType :=
  match es.getLast? with
  | some e => e.type.item
  | none => .any

def chainOccurrence (start : Occurrence) (es : List Expr) : Occurrence :=
  es.foldl (fun o e => o.multiply e.type.occurrence) start

def replaceIfEmpty (scope : Scope) (e : Expr) (hasEmpty : Bool) : Compile Expr :=
  if scope.optimize && hasEmpty && !e.dependsOn .effects then replace e .empty else return e

def optimizePath (scope : Scope) (root : Option Expr) (steps : List Expr)
    (location : Option Location) : Compile Expr :=
  let steps := flattenSteps scope steps
  match root, steps with
  | some root, [] => return root.at? location
  | none, [] => return Expr.contextItem.at? location
  | some root, steps =>
    let t := StaticType.of (lastItemType steps) (chainOccurrence root.type.occurrence steps)
    replaceIfEmpty scope ⟨.path root steps, t, location⟩
      (root.type.isZero || steps.any (·.type.isZero))
  | none, steps =>
    let t := StaticType.of (lastItemType steps) (chainOccurrence .one steps)
    let path : Expr := ⟨.relativePath steps, t, location⟩
    match steps with
    | [step] => if scope.optimize && step.isStep then return step else
      replaceIfEmpty scope path step.type.isZero
    | steps => replaceIfEmpty scope path (steps.any (·.type.isZero))

/-- Leaves out the context item in front of operands that do not ask for the position. -/
def dropContextItems : List Expr → Compile (List Expr)
  | first :: second :: rest =>
    if first.isContextItem && !second.dependsOn .position then do
      remark ("remove context item operand of " ++
        (Expr.of (.map (first :: second :: rest))).render)
      dropContextItems (second :: rest)
    else return first :: second :: rest
  | operands => return operands

/-- The product of sizes, if all are known and it is a word of 64 bits. -/
def productSize (es : List Expr) : Option Nat :=
  es.foldl (fun size e => do
    let a ← size
    let b ← e.type.size
    if a * b < Nat.pow 2 64 then some (a * b) else none) (some 1)

def optimizeMap (scope : Scope) (operands : List Expr) (location : Option Location) :
    Compile Expr := do
  let operands ← if scope.optimize then dropContextItems operands else pure operands
  let t := StaticType.make (lastItemType operands) (chainOccurrence .one operands)
    (productSize operands)
  let map : Expr := ⟨.map operands, t, location⟩
  match operands with
  | [operand] => if scope.optimize then return operand.at? location else return map
  | operands => replaceIfEmpty scope map (operands.any (·.type.isZero))

end TreeQuery
