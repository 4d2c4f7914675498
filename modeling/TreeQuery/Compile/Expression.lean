import TreeQuery.Compile.Filter
/-!
# Compilation of expressions

Compiling gives every node its static type and applies the rules of its form, operands first.
`Expr.optimize` applies the rules to a node with compiled operands, `simplify` those for an
expression of which only the truth counts. The rules come back to compilation and simplification
through an `Optimizer`; `optimizerWithin` ties the knot, down to a depth.
-/

namespace TreeQuery

def Expr.optimize (opt : Optimizer) (scope : Scope) (e : Expr) : Compile Expr :=
  match e with
  | ⟨form, _, location⟩ =>
    match form with
    | .conjunction operands => optimizeLogic opt scope true operands location
    | .disjunction operands => optimizeLogic opt scope false operands location
    | .comparison style op left right => optimizeComparison scope style op left right location
    | .call f args => optimizeCall opt scope f args location
    | .step axis test predicates => optimizeStep opt scope axis test predicates location
    | .path root steps => optimizePath scope (some root) steps location
    | .relativePath steps => optimizePath scope none steps location
    | .map operands => optimizeMap scope operands location
    | .filter root predicates => optimizeFilter opt scope root predicates location
    | .containsText input query => optimizeSearch scope input query location
    | .conditional condition yes no => optimizeConditional opt scope condition yes no location
    | .apply f args => optimizeApply scope f args location
    | .check operand target promote => operand.checkAs opt scope target promote location
    | _ => return e

/-! ### Simplification -/

/-- An expression with the same truth, `none` if no rule applies. -/
def simplerTruth (opt : Optimizer) (mode : TruthMode) (scope : Scope) (e : Expr) :
    Compile (Option Expr) :=
  match e.form with
  | .call .boolean [arg] => return if arg.type.mayBeNumber then none else some arg
  | .call .exists [arg] => return if arg.type.item.isNode then some arg else none
  | .call .count [arg] =>
    if mode ≠ .truth then return none
    else if arg.type.item.isNode then return some arg
    else some <$> optimizeCall opt scope .exists [arg] e.location
  | .filter root predicates => simplifyFilter opt scope root predicates
  | _ => return none

def simplify (opt : Optimizer) (mode : TruthMode) (scope : Scope) (e : Expr) : Compile Expr := do
  if !scope.optimize then return e
  match ← simplerTruth opt mode scope e with
  | some new => opt.simplify mode scope (← replace e new)
  | none => return e

/-! ### Compilation -/

def requireNode (scope : Scope) (location : Option Location) : Compile Unit :=
  match scope.focus with
  | none => (Logged.failWith .contextAbsent).locate location
  | some t => if t.isNode || t == .any then return () else
    failStatically t.render (.one .node) location

def requireFocus (scope : Scope) (f : Builtin) (location : Option Location) : Compile Unit :=
  if (f == .position || f == .last) && scope.focus.isNone then
    (Logged.failWith .contextAbsent).locate location
  else return ()

mutual

def Expr.compile (opt : Optimizer) (scope : Scope) : Expr → Compile Expr
  | ⟨form, type, location⟩ => form.compile opt scope type location

/-- Compiles a form that has a static type and a place. -/
def Form.compile (opt : Optimizer) (scope : Scope) (type : StaticType)
    (location : Option Location) : Form → Compile Expr
  | .literal values => return ⟨.literal values, type, location⟩
  | .position w => return ⟨.position w, type, location⟩
  | .failure e => return ⟨.failure e, type, location⟩
  | .contextItem =>
    match scope.focus with
    | some t => return ⟨.contextItem, .of t .one, location⟩
    | none => (Logged.failWith .contextAbsent).locate location
  | .function f => do
    let f ← f.compile opt scope
    return (Expr.of (.function f)).at? location
  | .conjunction operands => do
    let operands ← compileAll opt scope operands
    optimizeLogic opt scope true operands location
  | .disjunction operands => do
    let operands ← compileAll opt scope operands
    optimizeLogic opt scope false operands location
  | .comparison style op left right => do
    let left ← left.compile opt scope
    let right ← right.compile opt scope
    optimizeComparison scope style op left right location
  | .call f args => do
    requireFocus scope f location
    let args ← compileAll opt scope args
    optimizeCall opt scope f args location
  | .step axis test predicates => do
    requireNode scope location
    let predicates ← compilePredicates opt
      (scope.withFocus (some (stepType axis test).item)) predicates
    optimizeStep opt scope axis test predicates location
  | .path root steps => do
    let root ← root.compile opt scope
    let steps ← compileChain opt scope (some root.type.item) steps
    optimizePath scope (some root) steps location
  | .relativePath steps => do
    let steps ← compileChain opt scope none steps
    optimizePath scope none steps location
  | .map operands => do
    let operands ← compileChain opt scope none operands
    optimizeMap scope operands location
  | .filter root predicates => do
    let root ← root.compile opt scope
    let predicates ← compilePredicates opt (scope.withFocus (some root.type.item)) predicates
    optimizeFilter opt scope root predicates location
  | .containsText input query => do
    let input ← input.compile opt scope
    let query ← query.compile opt scope
    optimizeSearch scope input query location
  | .conditional condition yes no => do
    let condition ← condition.compile opt scope
    let yes ← yes.compile opt scope
    let no ← no.compile opt scope
    optimizeConditional opt scope condition yes no location
  | .reference v =>
    match scope.lookup v.name with
    | some found => return (Expr.of (.reference found)).at? location
    | none => (Logged.failWith (.undeclared v.name)).locate location
  | .apply f args => do
    let f ← f.compile opt scope
    let args ← compileAll opt scope args
    optimizeApply scope f args location
  | .check operand target promote => do
    let operand ← operand.compile opt scope
    operand.checkAs opt scope target promote location

/-- Compiles a function: its body without a focus, the result checked against the function's
signature. -/
def FunctionItem.compile (opt : Optimizer) (scope : Scope) : FunctionItem → Compile FunctionItem
  | .inline name signature params body => do
    let scope := (scope.withFocus none).withVariables params
    let body ← body.compile opt scope
    let body ← body.checkAs opt scope signature.result true body.location
    return .inline name signature params body
  | .coerced name signature inner => return .coerced name signature inner

def compileAll (opt : Optimizer) (scope : Scope) : List Expr → Compile (List Expr)
  | [] => return []
  | e :: es => do
    let e ← e.compile opt scope
    let rest ← compileAll opt scope es
    return e :: rest

/-- Compiles the operands of a path or map, each with the items of the one before in focus; the
first operand of all keeps the focus around it. -/
def compileChain (opt : Optimizer) (scope : Scope) (before : Option ItemType) :
    List Expr → Compile (List Expr)
  | [] => return []
  | e :: es => do
    let e ← e.compile opt (match before with
      | some t => scope.withFocus (some t)
      | none => scope)
    let rest ← compileChain opt scope (some e.type.item) es
    return e :: rest

/-- Compiles predicates; one that fails is put off until it is evaluated. -/
def compilePredicates (opt : Optimizer) (scope : Scope) : List Expr → Compile (List Expr)
  | [] => return []
  | e :: es => do
    let e ← deferring e (e.compile opt scope)
    let rest ← compilePredicates opt scope es
    return e :: rest

end

/-- The optimizer whose rules come back to it at most `depth` times within each other. -/
def optimizerWithin : Nat → Optimizer
  | 0 => ⟨fun _ _ => Logged.fail .aborted, fun _ _ _ => Logged.fail .aborted⟩
  | depth + 1 =>
    ⟨fun scope e => e.compile (optimizerWithin depth) scope,
      fun mode scope e => TreeQuery.simplify (optimizerWithin depth) mode scope e⟩

end TreeQuery
