import TreeQuery.Tree.Axis
import TreeQuery.Typing.StaticType
/-!
# Node tests

A node test asks for a kind, a name, both or neither.
-/

namespace TreeQuery

/-- A test of a node's kind and name; what is missing is not asked for. -/
structure NodeTest where
  kind : Option NodeKind
  name : Option ExpandedName
deriving DecidableEq, Repr, Inhabited

/-- What two optional demands ask together; `none` if they contradict each other. -/
def bothDemands {α : Type} [DecidableEq α] (a b : Option α) : Option (Option α) :=
  match a, b with
  | some x, some y => if x = y then some (some x) else none
  | some x, none => some (some x)
  | none, y => some y

namespace NodeTest

def named (axis : Axis) (name : ExpandedName) : NodeTest := ⟨some axis.principalKind, some name⟩

/-- The test that asks for what both ask; `none` if no node passes both. -/
def intersect (a b : NodeTest) : Option NodeTest := do
  let kind ← bothDemands a.kind b.kind
  let name ← bothDemands a.name b.name
  return ⟨kind, name⟩

def isKindTest (t : NodeTest) : Bool := t.name.isNone

def itemType (t : NodeTest) : ItemType :=
  match t.kind with
  | some k => .kind k
  | none => .node

/-- Whether a node passes. Namespaces are compared, prefixes are not. -/
def passes (t : NodeTest) (f : Forest) (n : NodeId) : Bool :=
  (match t.kind with
    | some k => f.kind n == k
    | none => true) &&
  (match t.name with
    | some expected =>
      match f.name n with
      | some name => name.part == expected.part && name.space == expected.space
      | none => false
    | none => true)

def render (t : NodeTest) : String :=
  match t.name, t.kind with
  | some name, _ => name.render
  | none, some .element => "*"
  | none, some kind => kind.name ++ "()"
  | none, none => "node()"

end NodeTest

/-- The static type of the nodes that a step selects before it filters them. -/
def stepType (axis : Axis) (test : NodeTest) : StaticType :=
  let item : ItemType :=
    match axis, test.kind with
    | .attribute, none => .kind .attribute
    | _, _ => test.itemType
  .of item (if axis.isSingleton then .zeroOrOne else .zeroOrMore)

end TreeQuery
