import TreeQuery.Typing.ItemType
import TreeQuery.Name
/-!
# Forests

Trees of nodes, numbered so that a node comes after all the nodes it lists. A node lists attributes,
namespace nodes and children; the first node that lists another one becomes its parent, later ones
list it without becoming its parent. `Forest` keeps both facts as invariants: lists lead to smaller
numbers, parents to greater ones that list the node, so that every walk in either direction ends.
What a node lists as its attributes are attributes, and neither attributes nor namespace nodes list
anything themselves.
-/

namespace TreeQuery

/-- The number of a node in its forest. -/
abbrev NodeId := Nat

/-- The name of a node, with the prefix it was written with. -/
structure NodeName where
  label : Option String
  part : String
  space : Option String
deriving DecidableEq, Repr, Inhabited

/-- A node: what it is, and the nodes that it lists. The value is that of nodes without content. -/
structure Node where
  kind : NodeKind
  name : Option NodeName := none
  value : String := ""
  attributes : List NodeId := []
  namespaces : List NodeId := []
  children : List NodeId := []
deriving DecidableEq, Repr, Inhabited

def Node.listed (n : Node) : List NodeId := n.attributes ++ n.namespaces ++ n.children

/-- The parents after node `m` has come to list `listed`. -/
def adopt (parents : Array (Option NodeId)) (listed : List NodeId) (m : NodeId) :
    Array (Option NodeId) :=
  (parents.mapIdx fun n p => p <|> if n ∈ listed then some m else none).push none

/-- Nodes and their parents. `documentsAddText` tells whether a document among a node's children
adds to its text. -/
structure Forest where
  nodes : Array Node
  parents : Array (Option NodeId)
  documentsAddText : Bool
  size_parents : parents.size = nodes.size
  lt_of_listed : ∀ (m : NodeId) (node : Node), nodes[m]? = some node → ∀ n ∈ node.listed, n < m
  listed_of_parent : ∀ n p : NodeId, parents[n]? = some (some p) →
    ∃ node, nodes[p]? = some node ∧ n ∈ node.listed
  kind_of_attribute : ∀ (m : NodeId) (node : Node), nodes[m]? = some node →
    ∀ a ∈ node.attributes, nodes[a]?.map Node.kind = some .attribute
  leaf_of_owned : ∀ (m : NodeId) (node : Node), nodes[m]? = some node →
    ∀ a ∈ node.attributes ++ node.namespaces, nodes[a]?.map Node.listed = some []

namespace Forest

def empty (documentsAddText : Bool) : Forest where
  nodes := #[]
  parents := #[]
  documentsAddText := documentsAddText
  size_parents := rfl
  lt_of_listed := by simp
  listed_of_parent := by simp
  kind_of_attribute := by simp
  leaf_of_owned := by simp

instance : Inhabited Forest := ⟨empty false⟩

def size (f : Forest) : Nat := f.nodes.size

private theorem map_push {β : Type} {nodes : Array Node} {node : Node} {g : Node → β} {b : β}
    {a : NodeId} (ha : nodes[a]?.map g = some b) : (nodes.push node)[a]?.map g = some b := by
  rw [Array.getElem?_push]
  split
  · next heq => simp [heq] at ha
  · exact ha

/-- Adds a node that lists nodes of the forest; `none` if it lists others, or as an attribute what
is none, or as an attribute or a namespace node what lists nodes itself. -/
def push? (f : Forest) (node : Node) : Option Forest :=
  if h : (∀ n ∈ node.listed, n < f.size) ∧
    (∀ a ∈ node.attributes, f.nodes[a]?.map Node.kind = some .attribute) ∧
      ∀ a ∈ node.attributes ++ node.namespaces, f.nodes[a]?.map Node.listed = some [] then
    some {
      nodes := f.nodes.push node
      parents := adopt f.parents node.listed f.size
      documentsAddText := f.documentsAddText
      size_parents := by simp [adopt, f.size_parents]
      lt_of_listed := by
        intro m other hm n hn
        rw [Array.getElem?_push] at hm
        split at hm
        · obtain rfl : node = other := by simpa using hm
          next heq => exact heq ▸ h.1 n hn
        · exact f.lt_of_listed m other hm n hn
      listed_of_parent := by
        intro n p hp
        rw [adopt, Array.getElem?_push] at hp
        split at hp
        · simp at hp
        · rw [Array.getElem?_mapIdx] at hp
          cases hq : f.parents[n]? with
          | none => simp [hq] at hp
          | some q =>
            cases q with
            | some q =>
              obtain rfl : q = p := by simpa [hq] using hp
              obtain ⟨other, ho, hn⟩ := f.listed_of_parent n q hq
              refine ⟨other, ?_, hn⟩
              rw [Array.getElem?_push]
              split
              next heq => simp [heq] at ho
              next => exact ho
            | none =>
              by_cases hn : n ∈ node.listed
              · obtain rfl : f.size = p := by simpa [hq, hn] using hp
                exact ⟨node, by simp [size], hn⟩
              · simp [hq, hn] at hp
      kind_of_attribute := by
        intro m other hm a ha
        rw [Array.getElem?_push] at hm
        split at hm
        · obtain rfl : node = other := by simpa using hm
          exact map_push (h.2.1 a ha)
        · exact map_push (f.kind_of_attribute m other hm a ha)
      leaf_of_owned := by
        intro m other hm a ha
        rw [Array.getElem?_push] at hm
        split at hm
        · obtain rfl : node = other := by simpa using hm
          exact map_push (h.2.2 a ha)
        · exact map_push (f.leaf_of_owned m other hm a ha) }
  else none

/-- The node with a number; numbers without a node have an empty text. -/
def node (f : Forest) (n : NodeId) : Node := f.nodes[n]?.getD ⟨.text, none, "", [], [], []⟩

def kind (f : Forest) (n : NodeId) : NodeKind := (f.node n).kind

def name (f : Forest) (n : NodeId) : Option NodeName := (f.node n).name

def children (f : Forest) (n : NodeId) : List NodeId := (f.node n).children

def attributes (f : Forest) (n : NodeId) : List NodeId := (f.node n).attributes

def namespaces (f : Forest) (n : NodeId) : List NodeId := (f.node n).namespaces

/-- The parent: the first node that lists this one. -/
def parent (f : Forest) (n : NodeId) : Option NodeId := f.parents[n]?.join

theorem lt_of_mem_listed {f : Forest} {m n : NodeId} (h : n ∈ (f.node m).listed) : n < m := by
  unfold node at h
  cases hm : f.nodes[m]? with
  | none => simp [hm, Node.listed] at h
  | some node => exact f.lt_of_listed m node hm n (by simpa [hm] using h)

theorem lt_of_mem_children {f : Forest} {m n : NodeId} (h : n ∈ f.children m) : n < m :=
  lt_of_mem_listed (by simp only [Node.listed, List.mem_append]; exact Or.inr h)

theorem mem_listed_of_parent {f : Forest} {n p : NodeId} (h : f.parent n = some p) :
    n ∈ (f.node p).listed := by
  obtain ⟨node, hp, hn⟩ :=
    f.listed_of_parent n p (by simpa [parent, Option.join_eq_some_iff] using h)
  simpa [Forest.node, hp] using hn

theorem lt_parent {f : Forest} {n p : NodeId} (h : f.parent n = some p) : n < p :=
  lt_of_mem_listed (mem_listed_of_parent h)

theorem parent_lt_size {f : Forest} {n p : NodeId} (h : f.parent n = some p) : p < f.size := by
  obtain ⟨node, hp, -⟩ :=
    f.listed_of_parent n p (by simpa [parent, Option.join_eq_some_iff] using h)
  exact (Array.getElem?_eq_some_iff.1 hp).1

theorem kind_of_mem_attributes {f : Forest} {m a : NodeId} (h : a ∈ f.attributes m) :
    f.kind a = .attribute := by
  unfold attributes node at h
  cases hm : f.nodes[m]? with
  | none => simp [hm] at h
  | some other =>
    have hkind := f.kind_of_attribute m other hm a (by simpa [hm] using h)
    obtain ⟨found, ha, hkind⟩ := Option.map_eq_some_iff.mp hkind
    simpa [kind, node, ha] using hkind

theorem listed_of_owned {f : Forest} {m a : NodeId} (h : a ∈ f.attributes m ++ f.namespaces m) :
    (f.node a).listed = [] := by
  unfold attributes namespaces node at h
  cases hm : f.nodes[m]? with
  | none => simp [hm] at h
  | some other =>
    have hleaf := f.leaf_of_owned m other hm a (by simpa [hm] using h)
    obtain ⟨found, ha, hleaf⟩ := Option.map_eq_some_iff.mp hleaf
    simpa [node, ha] using hleaf

/-- The nodes at most `depth` children below `n`, each before the nodes below it, itself the
first. -/
def subtree (f : Forest) : Nat → NodeId → List NodeId
  | 0, n => [n]
  | depth + 1, n => n :: (f.children n).flatMap (f.subtree depth)

/-- The nodes below `n` in document order. Its number bounds the depth. -/
def descendants (f : Forest) (n : NodeId) : List NodeId := (f.children n).flatMap (f.subtree n)

def ancestorsWithin (f : Forest) : Nat → NodeId → List NodeId
  | 0, _ => []
  | steps + 1, n =>
    match f.parent n with
    | some p => p :: f.ancestorsWithin steps p
    | none => []

/-- The ancestors of `n`, the nearest first. Each has a greater number than the one before. -/
def ancestors (f : Forest) (n : NodeId) : List NodeId := f.ancestorsWithin f.size n

def root (f : Forest) (n : NodeId) : NodeId := (f.ancestors n).getLast?.getD n

def content (f : Forest) : Nat → NodeId → String
  | 0, _ => ""
  | depth + 1, n =>
    match f.kind n with
    | .text => (f.node n).value
    | .element => String.join ((f.children n).map (f.content depth))
    | .document => if f.documentsAddText then
      String.join ((f.children n).map (f.content depth)) else ""
    | _ => ""

/-- The string value: of an element or a document the text under it, of any other node its own
value. -/
def stringValue (f : Forest) (n : NodeId) : String :=
  match f.kind n with
  | .element | .document => String.join ((f.children n).map (f.content n))
  | _ => (f.node n).value

end Forest
end TreeQuery
