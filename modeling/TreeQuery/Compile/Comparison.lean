import TreeQuery.Compile.Scope
import TreeQuery.Atomic.Compare
import TreeQuery.Expr.Dependency
/-!
# Rules for comparisons and positional tests

Comparisons of constants are made at once, a constant goes to the right, and a general comparison
with the empty sequence is false. As a predicate, a comparison of the position with a number becomes
a window.
-/

namespace TreeQuery

def foldComparison (style : CompareStyle) (op : CompareOp) (left right : Expr) (l r : List Atomic)
    (location : Option Location) : Compile Expr :=
  match style with
  | .general => Expr.ofBool <$> Logged.lift (compareGeneral op l r)
  | .value =>
    match l, r with
    | [], _ => return .empty
    | _, [] => return .empty
    | [a], [b] => Expr.ofBool <$> Logged.lift (Atomic.compare op a b)
    | _, _ =>
      let found := if 1 < l.length then left else right
      failStatically found.render (.optional (.atomic .anyAtomic)) location

def comparisonType (style : CompareStyle) (left right : Expr) : StaticType :=
  match style with
  | .general => .boolean
  | .value =>
    let mayBeEmpty := left.type.occurrence.min == 0 || right.type.occurrence.min == 0
    .of (.atomic .boolean) (if mayBeEmpty then .zeroOrOne else .one)

def optimizeComparison (scope : Scope) (style : CompareStyle) (op : CompareOp) (left right : Expr)
    (location : Option Location) : Compile Expr := do
  let plain (op : CompareOp) (left right : Expr) : Expr :=
    ⟨.comparison style op left right, comparisonType style left right, location⟩
  if !scope.optimize then return plain op left right
  match left.literalValues?, right.literalValues? with
  | some l, some r =>
    let folded ← foldComparison style op left right l r location
    replace (.of (.comparison style op left right)) (folded.at? location)
  | _, _ =>
    let swapped := left.isConstant && !right.isConstant
    if swapped then remark ("swap operands of " ++ (plain op left right).render)
    let (op, left, right) := if swapped then (op.swap, right, left) else (op, left, right)
    if style == .general && (left.type.isZero || right.type.isZero) && !left.dependsOn .effects
        && !right.dependsOn .effects then
      remark ((plain op left right).render ++ " compares an empty sequence")
      return (Expr.ofBool false).at? location
    return plain op left right

/-- Which positions satisfy a comparison of the position with a number, on either side; `none` if it
is no such comparison, or its positions are no run. -/
def recognizePosition (op : CompareOp) (left right : Expr) : Option PositionTest :=
  if left.isCallOf .position then right.number?.bind (Window.compare? op)
  else if right.isCallOf .position then left.number?.bind (Window.compare? op.swap)
  else none

def comparesWithLast (op : CompareOp) (left right : Expr) : Bool :=
  op == .eq && ((left.isCallOf .position && right.isCallOf .last) ||
    (left.isCallOf .last && right.isCallOf .position))

def optimizePositionTest (e : Expr) : Compile Expr :=
  match e.form with
  | .comparison _ op left right =>
    match recognizePosition op left right with
    | some test => replace e (.ofPositionTest test)
    | none => if comparesWithLast op left right then replace e (.call .last []) else return e
  | _ => return e

end TreeQuery
