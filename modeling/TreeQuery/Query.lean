import TreeQuery.Compile.Expression
import TreeQuery.Compile.Notes
import TreeQuery.Eval.Call
/-!
# Queries

The two halves of the library together: `Query.compile` makes a query of an expression and a static
context, and `Query.evaluate`, `Query.evaluateScored` and `Query.stream` give its value in a
context.
-/

namespace TreeQuery

/-- What is known of a query's surroundings before it is evaluated. -/
structure StaticContext where
  /-- The type of the context item, `none` if there is none. -/
  item : Option ItemType := some .any
  /-- The variables that are supplied from outside; of two with one name the last counts. -/
  externals : List Variable := []
  /-- Whether remarks on the compilation are kept. -/
  keepNotes : Bool := false
  optimize : Bool := true
  /-- How far rules may come back to compilation and simplification within each other. -/
  optimizeDepth : Nat := 1000000

namespace StaticContext

def scope (c : StaticContext) : Scope := ⟨c.optimize, c.item, c.externals.reverse⟩

def optimizer (c : StaticContext) : Optimizer := optimizerWithin c.optimizeDepth

end StaticContext

structure Query where
  expr : Expr
  notes : List String

namespace Query

def compile (c : StaticContext) (e : Expr) : Except Failure Query :=
  let compiled := e.compile c.optimizer c.scope
  compiled.outcome.map fun e => ⟨e, (Notes.addAll ⟨c.keepNotes, [], 0, false⟩ compiled.log).toList⟩

def stream (q : Query) (c : Context) : Run Cursor :=
  q.expr.iterate (callWithin c.callDepth) (.ofContext c)

def evaluate (q : Query) (c : Context) : Run (List Item) := do
  let cursor ← q.stream c
  cursor.drain c.scoring

def evaluateScored (q : Query) (c : Context) : Run (List (Item × Number)) := do
  let cursor ← q.expr.iterate (callWithin c.callDepth) ((Env.ofContext c).withScoring true)
  cursor.drainScored true

end Query
end TreeQuery
