import TreeQuery.Compile.Predicate
/-!
# Rules for filters

What is left of a filter or a step once its predicates are optimized, and the rules for a filter of
which only the truth counts: its last predicate moves out of the brackets, as a comparison, a
full-text search, a path or a map.
-/

namespace TreeQuery

def finishFilter (root : Expr) (predicates : List Expr) (t : Option StaticType)
    (location : Option Location) : Compile Expr :=
  match t with
  | some t => return if predicates.isEmpty then root else ⟨.filter root predicates, t, location⟩
  | none => replace ⟨.filter root predicates, .empty, location⟩ .empty

def finishStep (axis : Axis) (test : NodeTest) (predicates : List Expr) (t : Option StaticType)
    (location : Option Location) : Compile Expr :=
  match t with
  | some t => return ⟨.step axis test predicates, t, location⟩
  | none => replace ⟨.step axis test predicates, .empty, location⟩ .empty

def optimizeFilter (opt : Optimizer) (scope : Scope) (root : Expr) (predicates : List Expr)
    (location : Option Location) : Compile Expr := do
  let filtered ← optimizePredicates opt scope (.root root) predicates
  finishFilter root filtered.predicates filtered.type location

def optimizeStep (opt : Optimizer) (scope : Scope) (axis : Axis) (test : NodeTest)
    (predicates : List Expr) (location : Option Location) : Compile Expr := do
  let filtered ← optimizePredicates opt scope (.step axis test) predicates
  match filtered.host with
  | .step axis test => finishStep axis test filtered.predicates filtered.type location
  | .root _ => finishStep axis test filtered.predicates filtered.type location

def optimizeSearch (scope : Scope) (input query : Expr) (location : Option Location) :
    Compile Expr := do
  let plain : Expr := ⟨.containsText input query, .boolean, location⟩
  if scope.optimize && input.type.isZero then
    remark (plain.render ++ " has no input")
    return (Expr.ofBool false).at? location
  return plain

/-! ### The truth of a filter -/

def remainingRoot (opt : Optimizer) (scope : Scope) (root : Expr) (predicates : List Expr) :
    Compile Expr :=
  match predicates.dropLast with
  | [] => return root
  | others => optimizeFilter opt scope root others root.location

def relativeSteps? (e : Expr) : Option (List Expr) :=
  match e.form with
  | .step .. => some [e]
  | .relativePath steps => some steps
  | .path first steps => if first.isContextItem then some steps else none
  | _ => none

/-- An expression about the item in focus as one about the root: the root itself for the context
item, a path from the root for a relative path; `none` for other forms. -/
def extendRoot (opt : Optimizer) (scope : Scope) (root : Expr) (predicates : List Expr) (e : Expr) :
    Compile (Option Expr) :=
  if e.isContextItem then some <$> remainingRoot opt scope root predicates
  else
    match relativeSteps? e with
    | some steps => do
      let head ← remainingRoot opt scope root predicates
      some <$> optimizePath scope (some head) steps e.location
    | none => return none

/-- The last rules for the truth of a filter: a path becomes one from the root, and a predicate on
at most one item becomes a map. -/
def liftPredicate (opt : Optimizer) (scope : Scope) (root : Expr) (predicates : List Expr)
    (last : Expr) : Compile (Option Expr) := do
  match ← extendRoot opt scope root predicates last with
  | some path => return some path
  | none =>
    if root.type.atMostOne then
      let head ← remainingRoot opt scope root predicates
      some <$> optimizeMap scope [head, last] last.location
    else return none

/-- Optimizes a filter of which only the truth counts; `none` if no rule applies. The root has to
yield nodes, and no predicate may be positional. -/
def simplifyFilter (opt : Optimizer) (scope : Scope) (root : Expr) (predicates : List Expr) :
    Compile (Option Expr) := do
  match predicates.getLast? with
  | none => return none
  | some last =>
    if !root.type.item.isNode || predicates.any Expr.isPositional then return none
    match last.form with
    | .comparison .general op left right =>
      let lifted ← if right.dependsOn .context then pure none else
        extendRoot opt scope root predicates left
      match lifted with
      | some left => some <$> optimizeComparison scope .general op left right last.location
      | none => liftPredicate opt scope root predicates last
    | .containsText input query =>
      let lifted ← if query.dependsOn .context then pure none else
        extendRoot opt scope root predicates input
      match lifted with
      | some input => some <$> optimizeSearch scope input query last.location
      | none => liftPredicate opt scope root predicates last
    | _ => liftPredicate opt scope root predicates last

end TreeQuery
