import TreeQuery.Expr.Basic
import TreeQuery.Logged
import TreeQuery.Tree.Forest
/-!
# Items

What sequences are made of: nodes of the forest, atomic values and function items. Evaluation logs
traces; `Run` is a computation that does.
-/

namespace TreeQuery

inductive Item where
  | node (n : NodeId)
  | atomic (v : Atomic)
  | function (f : FunctionItem)

instance : Inhabited Item := ⟨.atomic default⟩

namespace Item

def render : Item → String
  | .node _ => "<node>"
  | .atomic v => v.render
  | .function f => f.render

def isNode : Item → Bool
  | .node _ => true
  | _ => false

def node? : Item → Option NodeId
  | .node n => some n
  | _ => none

end Item

/-- An entry of the evaluation log: a text under its label that a call of `trace` wrote, or a remark
of the evaluation itself. -/
structure Trace where
  label : String
  text : String
  isRemark : Bool := false
deriving DecidableEq, Repr, Inhabited

/-- An evaluation, which logs traces. -/
abbrev Run := Logged Trace

end TreeQuery
