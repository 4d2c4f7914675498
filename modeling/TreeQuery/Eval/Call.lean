import TreeQuery.Eval.Expression
/-!
# Calls of function items

An inline function binds its parameters and evaluates its body without a focus. A coerced function
checks arguments and result against its signature and calls the function inside. Calls may be nested
down to a given depth, since a function that calls itself through a parameter need not come to an
end.
-/

namespace TreeQuery

def checkArguments (env : Env) (location : Option Location) :
    List (List Item) → List SeqType → Run (List (List Item))
  | arg :: args, t :: ts => do
    let arg ← checkSequence env.forest t true location arg
    let rest ← checkArguments env location args ts
    return arg :: rest
  | _, _ => return []

/-- Calls a function, whose body is evaluated by `body`. -/
def FunctionItem.callWith (body : Env → Expr → Run (List Item)) (env : Env)
    (args : List (List Item)) (location : Option Location) : FunctionItem → Run (List Item)
  | .inline name signature params e =>
    let f := FunctionItem.inline name signature params e
    if args.length ≠ f.arity then
      (Logged.failWith (.wrongArguments f.render args.length)).locate location
    else do
      let locals ← env.bindParams location params args
      body (env.enter locals) e
  | .coerced name signature inner =>
    let f := FunctionItem.coerced name signature inner
    if args.length ≠ f.arity then
      (Logged.failWith (.wrongArguments f.render args.length)).locate location
    else do
      let args ← checkArguments env location args signature.params
      let result ← inner.callWith body env args location
      checkSequence env.forest signature.result true location result

/-- Calls function items, at most `depth` calls within each other. -/
def callWithin : Nat → Caller
  | 0 => fun _ _ _ _ => Logged.fail .aborted
  | depth + 1 => fun env f args location =>
    f.callWith (fun env e => e.value (callWithin depth) env) env args location

end TreeQuery
