import TreeQuery.Expr.Basic
/-!
# Dependencies

What the value of an expression can depend on: the position or size of its focus, the item in focus,
or something besides its value, as a trace that it writes. Operands that get a focus of their own do
not hand on what they ask of it.
-/

namespace TreeQuery

inductive Dependency where
  /-- The position or the size of the focus. -/
  | position
  /-- The item in focus. -/
  | context
  /-- Effects: traces, and calls of functions that are not known before. -/
  | effects
deriving DecidableEq, Repr

namespace Dependency

def ofBuiltin : Builtin → Option Dependency
  | .position | .last => some .position
  | .trace => some .effects
  | _ => none

end Dependency

mutual

def Expr.dependsOn (d : Dependency) : Expr → Bool
  | ⟨form, _, _⟩ => form.dependsOn d

def Form.dependsOn (d : Dependency) : Form → Bool
  | .literal _ | .function _ | .reference _ | .failure _ => false
  | .contextItem => d == .context
  | .position _ => d == .position
  | .conjunction operands => anyDependsOn d operands
  | .disjunction operands => anyDependsOn d operands
  | .comparison _ _ left right => left.dependsOn d || right.dependsOn d
  | .call f args => Dependency.ofBuiltin f == some d || anyDependsOn d args
  | .step _ _ predicates => d == .context || (d == .effects && anyDependsOn d predicates)
  | .path root steps => root.dependsOn d || (d == .effects && anyDependsOn d steps)
  | .relativePath steps => d == .context || (d == .effects && anyDependsOn d steps)
  | .map [] => false
  | .map (first :: rest) => first.dependsOn d || (d == .effects && anyDependsOn d rest)
  | .filter root predicates => root.dependsOn d || (d == .effects && anyDependsOn d predicates)
  | .containsText input query => input.dependsOn d || query.dependsOn d
  | .conditional condition yes no => condition.dependsOn d || yes.dependsOn d || no.dependsOn d
  | .apply f args => d == .effects || f.dependsOn d || anyDependsOn d args
  | .check operand _ _ => operand.dependsOn d

def anyDependsOn (d : Dependency) : List Expr → Bool
  | [] => false
  | e :: es => e.dependsOn d || anyDependsOn d es

end

namespace Expr

/-- Whether the expression has the same value in every focus, and no effects. -/
def isSimple (e : Expr) : Bool :=
  !e.dependsOn .context && !e.dependsOn .position && !e.dependsOn .effects

/-- Whether the truth of the expression as a predicate can depend on the position: it may be a
number, or ask for the position. -/
def isPositional (e : Expr) : Bool := e.type.mayBeNumber || e.dependsOn .position

end Expr

/-- The window of a list that begins with one and has no other positional predicate. -/
def leadingWindow? (predicates : List Expr) : Option Window :=
  match predicates with
  | first :: rest => if rest.any Expr.isPositional then none else first.window?
  | [] => none

end TreeQuery
