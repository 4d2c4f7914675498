import TreeQuery.Compile.Logic
import TreeQuery.Item.Conformance
/-!
# Rules for type checks and calls

A check that the static types decide is resolved: it vanishes, it fails at once, constants are
checked and functions given their new signature, and a check of a conditional is made in its
branches. Arguments that the binding of a parameter checks anyway need no check of their own.
-/

namespace TreeQuery

def runtimeCheck (e : Expr) (target : SeqType) (promote : Bool) (location : Option Location) :
    Expr :=
  let item := if e.type.item.instanceOf target.item then e.type.item else target.item
  let occurrence := (e.type.occurrence.intersect target.occurrence).getD target.occurrence
  let size := e.type.size.filter target.occurrence.admits
  ⟨.check e target promote, .make item occurrence size, location⟩

def coerceFunction (f : FunctionItem) (target : Signature) : Compile FunctionItem := do
  let g ← Logged.lift (f.coerce target)
  remark ("coerce " ++ f.render ++ " to " ++ target.render)
  return g

def checkLiteral (e : Expr) (values : List Atomic) (target : SeqType) (promote : Bool)
    (location : Option Location) : Compile Expr :=
  match checkAtomics values target promote with
  | .ok values => replace e ((Expr.literal values).at? location)
  | .error cause =>
    Logged.fail
      (.error { Error.staticMismatch e.render target location with detail := some cause.render })

def checkFunction (e : Expr) (f : FunctionItem) (target : SeqType) (promote : Bool)
    (location : Option Location) : Compile Expr :=
  match target.item with
  | .functionOf s =>
    if !target.occurrence.admits 1 || !promote then failStatically e.render target location
    else do
      let g ← coerceFunction f s
      return (Expr.of (.function g)).at? location
  | _ => failStatically e.render target location

/-- Whether the static types show that a check fails: no length is allowed by both, and promotion
cannot help. -/
def neverConforms (t : StaticType) (target : SeqType) : Bool :=
  (t.isZero || t.item.instanceOf target.item) && (t.occurrence.intersect target.occurrence).isNone

/-- Resolves the check of a compiled expression as far as the static types allow. -/
def Expr.checkAs (opt : Optimizer) (scope : Scope) (target : SeqType) (promote : Bool)
    (location : Option Location) (e : Expr) : Compile Expr :=
  match e with
  | ⟨form, type, place⟩ =>
    let e : Expr := ⟨form, type, place⟩
    if !scope.optimize then return runtimeCheck e target promote location
    else if type.instanceOf target then do
      remark ("remove redundant check of " ++ e.render ++ " as " ++ target.render)
      return e
    else
      match form with
      | .function f => checkFunction e f target promote location
      | .literal values => checkLiteral e values target promote location
      | .conditional condition yes no =>
        if neverConforms type target then failStatically e.render target location
        else do
          let yes ← yes.checkAs opt scope target promote yes.location
          let no ← no.checkAs opt scope target promote no.location
          optimizeConditional opt scope condition yes no location
      | _ =>
        if neverConforms type target then failStatically e.render target location
        else return runtimeCheck e target promote location

/-- Whether binding a value to a variable makes a check of it superfluous. -/
def checkIsRedundant (target : SeqType) (promote : Bool) (v : Variable) : Bool :=
  (!promote || v.promotes) && v.type.instanceOf target

def dropRedundantChecks : List Expr → List Variable → Compile (List Expr)
  | arg :: args, v :: vs => do
    let arg ← match arg.form with
      | .check operand target promote =>
        if checkIsRedundant target promote v then do
          remark ("remove redundant " ++ arg.form.render)
          pure operand
        else pure arg
      | _ => pure arg
    let rest ← dropRedundantChecks args vs
    return arg :: rest
  | _, _ => return []

def optimizeKnownApply (scope : Scope) (signature : Option Signature) (f : Expr) (args : List Expr)
    (location : Option Location) : Compile Expr := do
  let args ← match f.form with
    | .function (.inline _ _ params _) =>
      if scope.optimize then dropRedundantChecks args params else pure args
    | _ => pure args
  let t : StaticType :=
    match signature with
    | some s => .ofSeqType s.result
    | none => .anything
  return ⟨.apply f args, t, location⟩

def optimizeApply (scope : Scope) (f : Expr) (args : List Expr) (location : Option Location) :
    Compile Expr :=
  match f.type.item with
  | .functionOf s =>
    if s.arity ≠ args.length then
      failStatically (args.length.repr ++ " argument(s)") (.one (.functionOf s)) location
    else optimizeKnownApply scope (some s) f args location
  | .function | .any => optimizeKnownApply scope none f args location
  | other => failStatically other.render (.one .function) location

end TreeQuery
