import TreeQuery.Expr.Basic
/-!
# Text of expressions

How expressions are written in notes and messages. The text has no parentheses of its own around
operands.
-/

namespace TreeQuery

def joinWith (separator : String) (parts : List String) : String := separator.intercalate parts

def renderLiteral (values : List Atomic) : String :=
  match values with
  | [v] => v.render
  | vs => "(" ++ joinWith ", " (vs.map Atomic.render) ++ ")"

mutual

def Expr.render : Expr → String
  | ⟨form, _, _⟩ => form.render

def Form.render : Form → String
  | .literal values => renderLiteral values
  | .function item => item.render
  | .contextItem => "."
  | .position w => w.render
  | .conjunction operands => joinWith " and " (renderAll operands)
  | .disjunction operands => joinWith " or " (renderAll operands)
  | .comparison style op left right => left.render ++ " " ++ op.symbol style ++ " " ++ right.render
  | .call f args => f.name ++ "(" ++ joinWith ", " (renderAll args) ++ ")"
  | .step axis test predicates => axis.name ++ "::" ++ test.render ++ renderPredicates predicates
  | .path root steps => root.render ++ "/" ++ joinWith "/" (renderAll steps)
  | .relativePath steps => joinWith "/" (renderAll steps)
  | .map operands => joinWith " ! " (renderAll operands)
  | .filter root predicates => root.render ++ renderPredicates predicates
  | .containsText input query => input.render ++ " contains text " ++ query.render
  | .conditional condition yes no =>
    "if (" ++ condition.render ++ ") then " ++ yes.render ++ " else " ++ no.render
  | .reference v => "$" ++ v.name.render
  | .apply f args => f.render ++ "(" ++ joinWith ", " (renderAll args) ++ ")"
  | .check operand target promote =>
    (if promote then "coerce" else "treat") ++ "(" ++ operand.render ++ ", " ++ target.render ++ ")"
  | .failure error => "error(" ++ error.renderCode ++ ")"

def renderAll : List Expr → List String
  | [] => []
  | e :: es => e.render :: renderAll es

def renderPredicates : List Expr → String
  | [] => ""
  | e :: es => "[" ++ e.render ++ "]" ++ renderPredicates es

end

end TreeQuery
