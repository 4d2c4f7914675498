import TreeQuery.Compile.Check
import TreeQuery.Compile.Comparison
import TreeQuery.Compile.Path
import TreeQuery.Expr.Inline
/-!
# Rules for predicates

The predicates of a filter or a step are simplified one by one, brought into a canonical list and
joined where they are windows in a row. A self step may move into the node test of the step that it
filters. What is left tells how many items there can be.
-/

namespace TreeQuery

/-- What predicates filter: the value of an expression, or the nodes of a step. -/
inductive Host where
  | root (e : Expr)
  | step (axis : Axis) (test : NodeTest)

namespace Host

def type : Host → StaticType
  | .root e => e.type
  | .step axis test => stepType axis test

def isRoot (h : Host) (e : Expr) : Bool :=
  match h with
  | .root r => r.same e
  | .step .. => false

/-- Whether an expression gives the item in focus: the context item, or a root that is always the
same single item. -/
def givesItem (h : Host) (t : StaticType) (e : Expr) : Bool :=
  e.isContextItem || (h.isRoot e && e.isSimple && t.isOne)

def isSingleton : Host → Bool
  | .root _ => false
  | .step axis _ => axis.isSingleton

end Host

/-! ### One predicate -/

def selfStep? (e : Expr) : Option (NodeTest × List Expr) :=
  match e.form with
  | .step .self test predicates => some (test, predicates)
  | .relativePath [⟨.step .self test predicates, _, _⟩] => some (test, predicates)
  | _ => none

def unwrapMap (scope : Scope) (host : Host) (t : StaticType) (e : Expr) : Compile Expr :=
  match e.form with
  | .map (first :: second :: rest) =>
    if host.givesItem t first && !second.dependsOn .position then
      match rest with
      | [] => return second
      | rest => optimizeMap scope (second :: rest) e.location
    else return e
  | _ => return e

def unwrapPath (scope : Scope) (host : Host) (t : StaticType) (e : Expr) : Compile Expr :=
  match e.form with
  | .path first steps =>
    if t.item.isNode && host.givesItem t first && steps.all fun s =>
      s.isStep || !s.dependsOn .position then
      match steps with
      | [step] => if step.isStep then return step else optimizePath scope none steps e.location
      | steps => optimizePath scope none steps e.location
    else return e
  | _ => return e

/-- Puts the item of a one-item literal for the context item, and compiles the outcome. -/
def inlineRoot (opt : Optimizer) (scope : Scope) (host : Host) (e : Expr) : Compile Expr :=
  match host with
  | .root root =>
    match root.form with
    | .literal [_] =>
      match e.inlineContext? root with
      | some inlined => opt.compile scope inlined
      | none => return e
    | _ => return e
  | .step .. => return e

/-- The last rules for one predicate: a root of its own that it does not need, and a literal to
filter. `old` is the predicate before all rules. -/
def finishPredicate (opt : Optimizer) (scope : Scope) (t : StaticType) (host : Host)
    (old e : Expr) : Compile (Host × List Expr) := do
  let e ← unwrapPath scope host t e
  let e ← inlineRoot opt scope host e
  let e ← replace old e
  return (host, [e])

/-- What is left of one predicate, and the host, whose node test may have become narrower.
`positional` tells whether one of the predicates of the list is. -/
def simplifyPredicate (opt : Optimizer) (scope : Scope) (t : StaticType) (positional : Bool)
    (host : Host) (e : Expr) : Compile (Host × List Expr) := do
  if e.isContextItem && t.item.isNode then
    remark ("remove predicate [" ++ e.render ++ "]")
    return (host, [])
  let changed ← optimizePositionTest e
  let changed ← unwrapMap scope host t changed
  match selfStep? changed with
  | none => finishPredicate opt scope t host e changed
  | some (test, inner) =>
    if inner.any Expr.isPositional then finishPredicate opt scope t host e changed
    else
      let merged :=
        match host with
        | .step axis own => if positional then none else (own.intersect test).map (Host.step axis)
        | .root _ => none
      match merged with
      | some host =>
        remark ("merge [" ++ changed.render ++ "] into step test")
        return (host, inner)
      | none =>
        if test.isKindTest && inner.isEmpty && t.item.instanceOf test.itemType then
          remark ("remove predicate [" ++ changed.render ++ "]")
          return (host, [])
        else finishPredicate opt scope t host e changed

def simplifyPredicates (opt : Optimizer) (scope : Scope) (t : StaticType) (positional : Bool)
    (host : Host) : List Expr → Compile (Host × List Expr)
  | [] => return (host, [])
  | e :: es => do
    let (host, simplified) ← simplifyPredicate opt scope t positional host e
    let (host, rest) ← simplifyPredicates opt scope t positional host es
    return (host, simplified ++ rest)

/-! ### The canonical list -/

/-- A list of predicates that is being built, and whether one of them was positional. -/
structure PredicateList where
  kept : List Expr
  positional : Bool

namespace PredicateList

/-- Adds a predicate, unless it is constantly true, or a duplicate that no positional one separates
from its twin. -/
def add (l : PredicateList) (e : Expr) : Compile PredicateList := do
  let positional := l.positional || e.isPositional
  if e.isBool true then
    remark ("remove predicate [" ++ e.render ++ "]")
    return { l with positional }
  else if positional || e.dependsOn .effects || !l.kept.any (·.same e) then
    return ⟨l.kept ++ [e], positional⟩
  else
    remark ("remove duplicate predicate [" ++ e.render ++ "]")
    return { l with positional }

end PredicateList

def operandPredicate (opt : Optimizer) (scope : Scope) (location : Option Location) (e : Expr) :
    Compile Expr :=
  if e.type.mayBeNumber then optimizeCall opt scope .boolean [e] location else return e

/-- Adds all operands of a conjunction but the last, which is the answer. -/
def splitOperands (opt : Optimizer) (scope : Scope) (location : Option Location)
    (l : PredicateList) : List Expr → Compile (PredicateList × Expr)
  | [] => return (l, (Expr.ofBool true).at? location)
  | [e] => return (l, ← operandPredicate opt scope location e)
  | e :: es => do
    let e ← operandPredicate opt scope location e
    let l ← l.add e
    splitOperands opt scope location l es

/-- A constant predicate in canonical form: a number becomes a window, any other constant a truth
value. -/
def constantPredicate (e : Expr) : Except Error Expr :=
  match e.number? with
  | some x => .ok ((Expr.ofPositionTest (Window.atNumber x)).at? e.location)
  | none => if e.isConstant then e.constantTruth.map fun b =>
    (Expr.ofBool b).at? e.location else .ok e

def splittable? (e : Expr) : Option (List Expr) :=
  match e.form with
  | .conjunction operands => if e.dependsOn .position then none else some operands
  | _ => none

/-- A predicate in canonical form; a conjunction leaves all its operands but the last in the
list. -/
def canonicalPredicate (opt : Optimizer) (scope : Scope) (l : PredicateList) (e : Expr) :
    Compile (PredicateList × Expr) := do
  match splittable? e with
  | some operands =>
    remark ("split " ++ e.render ++ " into predicates")
    splitOperands opt scope e.location l operands
  | none =>
    let e ← Logged.lift (constantPredicate e)
    return (l, e)

/-- A window where at most one position occurs is a truth value. -/
def resolveSingleton (host : Host) (e : Expr) : Expr :=
  match e.window? with
  | some w => if host.isSingleton then (Expr.ofBool (w.contains 1)).at? e.location else e
  | none => e

def canonicalList (opt : Optimizer) (scope : Scope) (host : Host) (l : PredicateList) :
    List Expr → Compile (Option (List Expr))
  | [] => return some l.kept
  | e :: es => do
    let e ← opt.simplify .predicate scope e
    let (l, e) ← canonicalPredicate opt scope l e
    let e := resolveSingleton host e
    if e.isBool false then
      remark ("predicate [" ++ e.render ++ "] never matches")
      return none
    let l ← l.add e
    canonicalList opt scope host l es

/-- Joins windows that stand side by side, `last` being the predicate before; `none` if a window
becomes empty. -/
def mergeFrom (last : Expr) : List Expr → Compile (Option (List Expr))
  | [] => return some [last]
  | e :: es =>
    match last.window?, e.window? with
    | some v, some w =>
      match v.fuse w with
      | .within u => do
        remark ("merge predicates to [" ++ u.render ++ "]")
        mergeFrom ((Expr.of (.position u)).at? last.location) es
      | .never => do
        remark "merged positional predicates never match"
        return none
    | _, _ => do
      let rest ← mergeFrom e es
      return rest.map (last :: ·)

def mergeWindows : List Expr → Compile (Option (List Expr))
  | [] => return some []
  | e :: es => mergeFrom e es

/-! ### The list as a whole -/

/-- What a predicate leaves of at most `most` items: the number of the last position leaves one, a
window those in it. -/
def limitBy (e : Expr) (most : Option Nat) : Option Nat :=
  if e.isCallOf .last then some (match most with
    | some m => min m 1
    | none => 1)
  else
    match e.window? with
    | some w =>
      let most := most.map fun m => m - (w.first - 1)
      if w.isUnbounded then most
      else some (match most with
        | some m => min m w.width
        | none => w.width)
    | none => most

def limitsExactly (e : Expr) : Bool := e.isCallOf .last || e.window?.isSome

def filteredType (input : StaticType) (predicates : List Expr) : Option StaticType :=
  let most := predicates.foldl (fun most e => limitBy e most) input.size
  if most = some 0 then none
  else
    let size := if input.size.isSome && predicates.all limitsExactly then most else none
    let occurrence : Occurrence :=
      match most with
      | some 1 => .zeroOrOne
      | _ => input.occurrence.union .zero
    some (.make input.item occurrence size)

/-- Optimized predicates, their host, and the type of what they leave, `none` if that is nothing. -/
structure Filtered where
  host : Host
  predicates : List Expr
  type : Option StaticType

def optimizePredicates (opt : Optimizer) (scope : Scope) (host : Host) (predicates : List Expr) :
    Compile Filtered := do
  if !scope.optimize || predicates.isEmpty then
    return ⟨host, predicates, filteredType host.type predicates⟩
  let t := host.type
  let scope := scope.withFocus (some t.item)
  let (host, predicates) ←
    simplifyPredicates opt scope t (predicates.any Expr.isPositional) host predicates
  match ← canonicalList opt scope host ⟨[], false⟩ predicates with
  | none => return ⟨host, [], none⟩
  | some predicates =>
    match ← mergeWindows predicates with
    | none => return ⟨host, [], none⟩
    | some predicates => return ⟨host, predicates, filteredType host.type predicates⟩

end TreeQuery
