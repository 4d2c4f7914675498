import TreeQuery.Tree.Forest
import TreeQuery.Error
import TreeQuery.Sorting.Stable
/-!
# Document order

A node comes before all nodes below it. Of two nodes neither of which is above the other, the one
whose branch is listed first where the branches part comes first: attributes before namespace nodes
before children. Nodes of different trees have no order.
-/

namespace TreeQuery

/-- Sorts elements and drops repetitions. The sort is not told of elements without an order, which
count as equal; the first failure is kept until it is done. If it gives up before that, the run is
aborted. -/
def sortDistinct {α : Type} [BEq α] (order : α → α → Except Error Ordering) (as : List α) :
    Except Failure (List α) :=
  match (Comparing.stableSort as).collect order none with
  | some (none, sorted) => .ok sorted.eraseReps
  | some (some e, _) => .error (.error e)
  | none => .error .aborted

namespace Forest

def pathFromRoot (f : Forest) (n : NodeId) : List NodeId := (n :: f.ancestors n).reverse

/-- Orders two nodes that a node lists by their places in its lists. -/
def compareSiblings (f : Forest) (parent a b : NodeId) : Ordering :=
  let listed := (f.node parent).listed
  match listed.idxOf? a, listed.idxOf? b with
  | some i, some j => compare i j
  | _, _ => .eq

/-- Orders the ends of two paths that share the path down to `above`. -/
def comparePaths (f : Forest) (above : NodeId) : List NodeId → List NodeId → Ordering
  | [], [] => .eq
  | [], _ :: _ => .lt
  | _ :: _, [] => .gt
  | a :: as, b :: bs => if a = b then f.comparePaths a as bs else f.compareSiblings above a b

/-- Document order of two nodes; fails for nodes of different trees. -/
def compareOrder (f : Forest) (a b : NodeId) : Except Error Ordering :=
  match f.pathFromRoot a, f.pathFromRoot b with
  | r :: as, s :: bs => if r = s then .ok (f.comparePaths r as bs) else .error (.of .unorderable)
  | _, _ => .ok .eq

def sortNodes (f : Forest) (nodes : List NodeId) : Except Failure (List NodeId) :=
  sortDistinct f.compareOrder nodes

end Forest
end TreeQuery
