import TreeQuery.Tree.Forest
/-!
# Axes

The directions in which a step can leave a node. A reverse axis lists its nodes from the start
outwards, against document order.
-/

namespace TreeQuery

inductive Axis where
  | child
  | attribute
  | self
  | descendant
  | descendantOrSelf
  | parent
  | ancestor
  | ancestorOrSelf
  | followingSibling
  | precedingSibling
deriving DecidableEq, Repr, Inhabited

namespace Axis

/-- Whether positions are counted from the start outwards, against document order. -/
def isReverse : Axis → Bool
  | .parent | .ancestor | .ancestorOrSelf | .precedingSibling => true
  | _ => false

def isSingleton : Axis → Bool
  | .self | .parent => true
  | _ => false

/-- The kind of node that a bare name stands for. -/
def principalKind : Axis → NodeKind
  | .attribute => .attribute
  | _ => .element

def name : Axis → String
  | .child => "child"
  | .attribute => "attribute"
  | .self => "self"
  | .descendant => "descendant"
  | .descendantOrSelf => "descendant-or-self"
  | .parent => "parent"
  | .ancestor => "ancestor"
  | .ancestorOrSelf => "ancestor-or-self"
  | .followingSibling => "following-sibling"
  | .precedingSibling => "preceding-sibling"

end Axis

namespace Forest

/-- The children of the parent before and after `n`, in document order. What is no child has no
siblings. -/
def siblings (f : Forest) (n : NodeId) : List NodeId × List NodeId :=
  match f.parent n with
  | none => ([], [])
  | some p =>
    let all := f.children p
    match all.idxOf? n with
    | some i => (all.take i, all.drop (i + 1))
    | none => ([], [])

/-- The nodes on an axis of `n`, in the order of the axis. -/
def axisNodes (f : Forest) (n : NodeId) : Axis → List NodeId
  | .child => f.children n
  | .attribute => f.attributes n
  | .self => [n]
  | .descendant => f.descendants n
  | .descendantOrSelf => n :: f.descendants n
  | .parent => (f.parent n).toList
  | .ancestor => f.ancestors n
  | .ancestorOrSelf => n :: f.ancestors n
  | .followingSibling => (f.siblings n).2
  | .precedingSibling => (f.siblings n).1.reverse

end Forest
end TreeQuery
