import TreeQuery.Expr.Basic
/-!
# Constants for the context item

Replacing the context item by an expression, where it stands in the focus of the whole. References
inside steps, predicates, later operands of a map or a path and function bodies belong to another
focus and stay.
-/

namespace TreeQuery

mutual

/-- Whether the expression has a reference to the context item of its own focus. -/
def Expr.mentionsContext : Expr → Bool
  | ⟨form, _, _⟩ => form.mentionsContext

def Form.mentionsContext : Form → Bool
  | .contextItem => true
  | .conjunction operands => anyMentionsContext operands
  | .disjunction operands => anyMentionsContext operands
  | .comparison _ _ left right => left.mentionsContext || right.mentionsContext
  | .call _ args => anyMentionsContext args
  | .path root _ => root.mentionsContext
  | .map (first :: _) => first.mentionsContext
  | .filter root _ => root.mentionsContext
  | .containsText input query => input.mentionsContext || query.mentionsContext
  | .conditional condition yes no =>
    condition.mentionsContext || yes.mentionsContext || no.mentionsContext
  | .apply f args => f.mentionsContext || anyMentionsContext args
  | .check operand _ _ => operand.mentionsContext
  | _ => false

def anyMentionsContext : List Expr → Bool
  | [] => false
  | e :: es => e.mentionsContext || anyMentionsContext es

end

mutual

/-- The expression with `value` for the context item of its focus, at the place of the reference. -/
def Expr.replaceContext : Expr → Expr → Expr
  | ⟨.contextItem, _, location⟩, value => value.at? location
  | ⟨form, type, location⟩, value => ⟨form.replaceContext value, type, location⟩

def Form.replaceContext (value : Expr) : Form → Form
  | .conjunction operands => .conjunction (replaceContextAll value operands)
  | .disjunction operands => .disjunction (replaceContextAll value operands)
  | .comparison style op left right =>
    .comparison style op (left.replaceContext value) (right.replaceContext value)
  | .call f args => .call f (replaceContextAll value args)
  | .path root steps => .path (root.replaceContext value) steps
  | .map (first :: rest) => .map (first.replaceContext value :: rest)
  | .filter root predicates => .filter (root.replaceContext value) predicates
  | .containsText input query =>
    .containsText (input.replaceContext value) (query.replaceContext value)
  | .conditional condition yes no =>
    .conditional (condition.replaceContext value) (yes.replaceContext value)
      (no.replaceContext value)
  | .apply f args => .apply (f.replaceContext value) (replaceContextAll value args)
  | .check operand target promote => .check (operand.replaceContext value) target promote
  | form => form

def replaceContextAll (value : Expr) : List Expr → List Expr
  | [] => []
  | e :: es => e.replaceContext value :: replaceContextAll value es

end

def Expr.inlineContext? (e value : Expr) : Option Expr :=
  if e.mentionsContext then some (e.replaceContext value) else none

end TreeQuery
