import TreeQuery.Tree.Forest
/-!
# Drafts of trees

How a forest comes about: a `Draft` describes a tree with its parts inside it, and `Forest.plant?`
adds it. The parts of a node are numbered before the node, attributes first, then namespace nodes,
then children. A draft may contain a node that the forest already has; it is listed again, and keeps
the parent that it has.
-/

namespace TreeQuery

/-- A tree to be planted, or a node that is in the forest. -/
inductive Draft where
  | planted (n : NodeId)
  | node (kind : NodeKind) (name : Option NodeName) (value : String)
    (attributes namespaces children : List Draft)

namespace Forest

mutual

/-- Adds a tree; tells the number of its top. There must not be a reference to a node that is not in
the forest, attributes have to be attributes, and neither they nor namespace nodes may list
anything. -/
def plant? (f : Forest) : Draft → Option (Forest × NodeId)
  | .planted n => some (f, n)
  | .node kind name value attributes namespaces children => do
    let (f, attributes) ← f.plantAll? attributes
    let (f, namespaces) ← f.plantAll? namespaces
    let (f, children) ← f.plantAll? children
    let planted ← f.push? ⟨kind, name, value, attributes, namespaces, children⟩
    return (planted, f.size)

def plantAll? (f : Forest) : List Draft → Option (Forest × List NodeId)
  | [] => some (f, [])
  | draft :: drafts => do
    let (f, n) ← f.plant? draft
    let (f, others) ← f.plantAll? drafts
    return (f, n :: others)

end

end Forest
end TreeQuery
