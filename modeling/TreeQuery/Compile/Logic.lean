import TreeQuery.Compile.Scope
import TreeQuery.Expr.Dependency
/-!
# Rules for truth values

Calls of functions on truth and size, conjunctions, disjunctions and conditionals. Operands are
simplified as truth values first; constants are evaluated, and what the static types tell of a size
is used.
-/

namespace TreeQuery

def foldExistence (f : Builtin) (arg : Expr) : Option Expr :=
  let exists? :=
    match arg.type.size with
    | some n => some (decide (0 < n))
    | none => if 0 < arg.type.occurrence.min then some true else none
  exists?.map fun b => .ofBool (b == (f == .exists))

def foldCall (f : Builtin) (arg : Expr) : Except Error (Option Expr) :=
  match f with
  | .boolean =>
    if arg.type.isOne && arg.type.item == .atomic .boolean then .ok (some arg)
    else if arg.isConstant then arg.constantTruth.map fun b => some (.ofBool b)
    else .ok none
  | .not =>
    if arg.isConstant then arg.constantTruth.map fun b => some (.ofBool !b)
    else
      match arg.form with
      | .call .empty args => .ok (some (.call .exists args))
      | .call .exists args => .ok (some (.call .empty args))
      | _ => .ok none
  | .exists | .empty => .ok (if arg.dependsOn .effects then none else foldExistence f arg)
  | .count =>
    .ok (if arg.dependsOn .effects then none
      else (arg.type.size.filter fun n => decide ((n : Int) ≤ Atomic.maxInteger)).map
        fun n => .ofInt n)
  | _ => .ok none

def optimizeCall (opt : Optimizer) (scope : Scope) (f : Builtin) (args : List Expr)
    (location : Option Location) : Compile Expr :=
  let plain (args : List Expr) : Expr := ⟨.call f args, f.resultType args, location⟩
  match args with
  | [arg] => do
    if !scope.optimize then return plain [arg]
    let arg ← if f == .boolean || f == .not then opt.simplify .truth scope arg else pure arg
    match ← Logged.lift (foldCall f arg) with
    | some new => replace (.call f [arg]) (new.at? location)
    | none => return plain [arg]
  | args => return plain args

/-- The operands of a conjunction or a disjunction, simplified, with those of nested ones in
between. -/
def flattenOperands (opt : Optimizer) (scope : Scope) (isAnd : Bool) :
    List Expr → Compile (List Expr)
  | [] => return []
  | e :: es => do
    let e ← opt.simplify .truth scope e
    let rest ← flattenOperands opt scope isAnd es
    match e.form with
    | .conjunction inner => return if isAnd then inner ++ rest else e :: rest
    | .disjunction inner => return if isAnd then e :: rest else inner ++ rest
    | _ => return e :: rest

/-- Removes constant operands; `none` if one of them decides the whole. -/
def dropConstants (isAnd : Bool) : List Expr → Compile (Option (List Expr))
  | [] => return some []
  | e :: es => do
    if !e.isConstant then
      let rest ← dropConstants isAnd es
      return rest.map (e :: ·)
    else if (← Logged.lift e.constantTruth) != isAnd then
      remark ("pre-evaluate " ++ (if isAnd then "and" else "or") ++ " operand " ++ e.render)
      return none
    else
      remark ("remove operand " ++ e.render)
      dropConstants isAnd es

def optimizeLogic (opt : Optimizer) (scope : Scope) (isAnd : Bool) (operands : List Expr)
    (location : Option Location) : Compile Expr := do
  let plain (operands : List Expr) : Expr :=
    ⟨if isAnd then .conjunction operands else .disjunction operands, .boolean, location⟩
  let operands ← flattenOperands opt scope isAnd operands
  if !scope.optimize then return plain operands
  match ← dropConstants isAnd operands with
  | none => return (Expr.ofBool !isAnd).at? location
  | some [] => return (Expr.ofBool isAnd).at? location
  | some [operand] => optimizeCall opt scope .boolean [operand] location
  | some operands => return plain operands

def optimizeConditional (opt : Optimizer) (scope : Scope) (condition yes no : Expr)
    (location : Option Location) : Compile Expr := do
  let condition ← opt.simplify .truth scope condition
  if scope.optimize && condition.isConstant then
    let branch := if ← Logged.lift condition.constantTruth then yes else no
    remark ("pre-evaluate if (" ++ condition.render ++ ") to " ++ branch.render)
    return branch
  return ⟨.conditional condition yes no, yes.type.union no.type, location⟩

end TreeQuery
