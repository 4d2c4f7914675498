import TreeQuery.Tree.DocumentOrder
/-!
# Document order by ancestry

Document order for nodes of any kind, as long as they tell their parent and the nodes that they
list. Two nodes are compared where the ways down to them from the root part, by their places among
the nodes listed there. `Forest.lineage` is what a forest tells of its nodes.
-/

namespace TreeQuery

/-- What comparing nodes needs to know of them. Every walk to the parents ends, and parents list
their nodes. -/
structure Lineage (N : Type) where
  parent : N → Option N
  attributes : N → List N
  namespaces : N → List N
  children : N → List N
  wellFounded : WellFounded fun p n => parent n = some p
  listed_of_parent : ∀ n p, parent n = some p → n ∈ attributes p ++ namespaces p ++ children p

namespace Lineage

variable {N : Type} (L : Lineage N)

/-- All nodes that a node lists: attributes before namespace nodes before children. -/
def listed (p : N) : List N := L.attributes p ++ L.namespaces p ++ L.children p

def ancestors (n : N) : List N :=
  match _h : L.parent n with
  | none => []
  | some p => p :: ancestors p
termination_by L.wellFounded.wrap n
decreasing_by assumption

def root (n : N) : N := (L.ancestors n).getLast?.getD n

def pathFromRoot (n : N) : List N := (n :: L.ancestors n).reverse

variable [DecidableEq N]

/-- Orders two nodes that a node lists by their places among the nodes listed. -/
def compareSiblings (parent a b : N) : Ordering :=
  match (L.listed parent).idxOf? a, (L.listed parent).idxOf? b with
  | some i, some j => compare i j
  | _, _ => .eq

/-- Orders the ends of two paths that share the path down to `above`. -/
def comparePaths (above : N) : List N → List N → Ordering
  | [], [] => .eq
  | [], _ :: _ => .lt
  | _ :: _, [] => .gt
  | a :: as, b :: bs => if a = b then comparePaths a as bs else L.compareSiblings above a b

/-- Document order of two nodes; fails for nodes of different trees. -/
def compareOrder (a b : N) : Except Error Ordering :=
  match L.pathFromRoot a, L.pathFromRoot b with
  | r :: as, s :: bs => if r = s then .ok (L.comparePaths r as bs) else .error (.of .unorderable)
  | _, _ => .ok .eq

end Lineage

namespace Forest

theorem wellFounded_parent (f : Forest) : WellFounded fun p n => f.parent n = some p :=
  Subrelation.wf
    (fun h => Nat.sub_lt_sub_left (Nat.lt_trans (lt_parent h) (parent_lt_size h)) (lt_parent h))
    (measure (f.size - ·)).wf

def lineage (f : Forest) : Lineage NodeId where
  parent := f.parent
  attributes := f.attributes
  namespaces := f.namespaces
  children := f.children
  wellFounded := f.wellFounded_parent
  listed_of_parent _ _ h := mem_listed_of_parent h

end Forest
end TreeQuery
