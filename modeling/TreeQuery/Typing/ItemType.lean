import TreeQuery.Typing.Occurrence
/-!
# Item types and sequence types

What an item can be, and what a sequence can be: an item type and an occurrence indicator. Function
types are compared with their parameters the other way round, so `ItemType.relates` carries the
direction of comparison along; `ItemType.instanceOf` is its covariant half.
-/

namespace TreeQuery

inductive NodeKind where
  | document
  | element
  | attribute
  | text
  | comment
  | processingInstruction
  | namespaceNode
deriving DecidableEq, Repr, Inhabited

def NodeKind.name : NodeKind → String
  | .document => "document-node"
  | .element => "element"
  | .attribute => "attribute"
  | .text => "text"
  | .comment => "comment"
  | .processingInstruction => "processing-instruction"
  | .namespaceNode => "namespace-node"

inductive AtomicType where
  | anyAtomic
  | untypedAtomic
  | string
  | boolean
  | decimal
  | integer
  | double
  | float
  | anyURI
deriving DecidableEq, Repr, Inhabited

namespace AtomicType

def name : AtomicType → String
  | .anyAtomic => "xs:anyAtomicType"
  | .untypedAtomic => "xs:untypedAtomic"
  | .string => "xs:string"
  | .boolean => "xs:boolean"
  | .decimal => "xs:decimal"
  | .integer => "xs:integer"
  | .double => "xs:double"
  | .float => "xs:float"
  | .anyURI => "xs:anyURI"

/-- Every atomic type lies below the general one, and integers are decimals. -/
def instanceOf (a b : AtomicType) : Bool :=
  a == b || b == .anyAtomic || (a == .integer && b == .decimal)

def isNumeric : AtomicType → Bool
  | .decimal | .integer | .double | .float => true
  | _ => false

end AtomicType

mutual

inductive ItemType where
  /-- Any item. -/
  | any
  /-- Any node. -/
  | node
  | kind (k : NodeKind)
  | atomic (t : AtomicType)
  /-- Any function item. -/
  | function
  | functionOf (signature : Signature)

structure SeqType where
  item : ItemType
  occurrence : Occurrence

/-- The parameters and the result of a function. -/
structure Signature where
  params : List SeqType
  result : SeqType

end

deriving instance Repr for ItemType, SeqType, Signature

instance : Inhabited ItemType := ⟨.any⟩
instance : Inhabited SeqType := ⟨⟨.any, .zeroOrMore⟩⟩
instance : Inhabited Signature := ⟨⟨[], default⟩⟩

/-! ### Equality -/

mutual

def ItemType.same : ItemType → ItemType → Bool
  | .functionOf s, .functionOf t => s.same t
  | .any, .any => true
  | .node, .node => true
  | .kind k, .kind l => k == l
  | .atomic t, .atomic u => t == u
  | .function, .function => true
  | _, _ => false
termination_by structural a => a

def SeqType.same : SeqType → SeqType → Bool
  | ⟨i, o⟩, ⟨j, p⟩ => i.same j && o == p
termination_by structural a => a

def Signature.same : Signature → Signature → Bool
  | ⟨ps, r⟩, ⟨qs, s⟩ => sameSeqTypes ps qs && r.same s
termination_by structural a => a

def sameSeqTypes : List SeqType → List SeqType → Bool
  | [], [] => true
  | s :: ss, t :: ts => s.same t && sameSeqTypes ss ts
  | _, _ => false
termination_by structural as => as

end

mutual

theorem ItemType.same_iff : (a b : ItemType) → (a.same b = true ↔ a = b)
  | .functionOf s, b => by
    cases b <;> simp [ItemType.same, Signature.same_iff s]
  | .any, b => by cases b <;> simp [ItemType.same]
  | .node, b => by cases b <;> simp [ItemType.same]
  | .kind k, b => by cases b <;> simp [ItemType.same]
  | .atomic t, b => by cases b <;> simp [ItemType.same]
  | .function, b => by cases b <;> simp [ItemType.same]

theorem SeqType.same_iff : (a b : SeqType) → (a.same b = true ↔ a = b)
  | ⟨i, o⟩, ⟨j, p⟩ => by simp [SeqType.same, ItemType.same_iff i]

theorem Signature.same_iff : (a b : Signature) → (a.same b = true ↔ a = b)
  | ⟨ps, r⟩, ⟨qs, s⟩ => by simp [Signature.same, sameSeqTypes_iff ps, SeqType.same_iff r]

theorem sameSeqTypes_iff : (a b : List SeqType) → (sameSeqTypes a b = true ↔ a = b)
  | [], [] => by simp [sameSeqTypes]
  | [], _ :: _ => by simp [sameSeqTypes]
  | _ :: _, [] => by simp [sameSeqTypes]
  | s :: ss, t :: ts => by simp [sameSeqTypes, SeqType.same_iff s, sameSeqTypes_iff ss]

end

instance : DecidableEq ItemType := fun a b => decidable_of_iff _ (ItemType.same_iff a b)
instance : DecidableEq SeqType := fun a b => decidable_of_iff _ (SeqType.same_iff a b)
instance : DecidableEq Signature := fun a b => decidable_of_iff _ (Signature.same_iff a b)

/-! ### Common sequence types -/

namespace SeqType

def one (item : ItemType) : SeqType := ⟨item, .one⟩
def optional (item : ItemType) : SeqType := ⟨item, .zeroOrOne⟩
def many (item : ItemType) : SeqType := ⟨item, .zeroOrMore⟩

def anything : SeqType := many .any

end SeqType

def Signature.arity (s : Signature) : Nat := s.params.length

/-! ### Subtypes -/

/-- Which way two types are compared: from the subtype up, or from the supertype down. -/
inductive Variance where
  | co
  | contra
deriving DecidableEq, Repr

def Variance.flip : Variance → Variance
  | .co => .contra
  | .contra => .co

/-- Puts two arguments of a relation into the order of the direction. -/
def Variance.apply {α : Type} (v : Variance) (r : α → α → Bool) (a b : α) : Bool :=
  match v with
  | .co => r a b
  | .contra => r b a

/-- Subtypes at the surface: all pairs but two functions with signatures. -/
def ItemType.surfaceInstanceOf (a b : ItemType) : Bool :=
  match a, b with
  | _, .any => true
  | .node, .node => true
  | .kind _, .node => true
  | .kind k, .kind l => k == l
  | .atomic t, .atomic u => t.instanceOf u
  | .function, .function => true
  | .functionOf _, .function => true
  | _, _ => false

mutual

/-- Whether `a` and `b` are a subtype and its supertype, in the direction's order. -/
def ItemType.relates (v : Variance) (a b : ItemType) : Bool :=
  match a, b with
  | .functionOf s, .functionOf t => s.relates v t
  | a, b => v.apply ItemType.surfaceInstanceOf a b
termination_by structural a

/-- A sequence type lies below another if its lengths do and, unless it is empty, its items. -/
def SeqType.relates (v : Variance) (a b : SeqType) : Bool :=
  match a, b with
  | ⟨i, o⟩, ⟨j, p⟩ => v.apply Occurrence.instanceOf o p &&
    (v.apply (fun lower _ => lower == .zero) o p || i.relates v j)
termination_by structural a

/-- A signature lies below another of the same arity if its result does, and its parameters lie
above. -/
def Signature.relates (v : Variance) (a b : Signature) : Bool :=
  match a, b with
  | ⟨ps, r⟩, ⟨qs, s⟩ => ps.length == qs.length && seqTypesRelate v.flip ps qs && r.relates v s
termination_by structural a

def seqTypesRelate (v : Variance) (as bs : List SeqType) : Bool :=
  match as, bs with
  | a :: as, b :: bs => a.relates v b && seqTypesRelate v as bs
  | _, _ => true
termination_by structural as

end

/-- Whether every item of type `a` is one of type `b`. -/
def ItemType.instanceOf (a b : ItemType) : Bool := a.relates .co b

def SeqType.instanceOf (a b : SeqType) : Bool := a.relates .co b

def Signature.instanceOf (a b : Signature) : Bool := a.relates .co b

namespace ItemType

/-- The least type above both. -/
def union (a b : ItemType) : ItemType :=
  if a.instanceOf b then b
  else if b.instanceOf a then a
  else match a, b with
    | .node, .kind _ | .kind _, .node | .kind _, .kind _ | .node, .node => .node
    | .atomic _, .atomic _ => .atomic .anyAtomic
    | .function, .functionOf _ | .functionOf _, .function | .functionOf _,
      .functionOf _ | .function, .function => .function
    | _, _ => .any

def isNode : ItemType → Bool
  | .node | .kind _ => true
  | _ => false

def isNumber : ItemType → Bool
  | .atomic t => t.isNumeric
  | _ => false

def mayBeNumber : ItemType → Bool
  | .any => true
  | .atomic t => t == .anyAtomic || t.isNumeric
  | _ => false

def isFunction : ItemType → Bool
  | .function | .functionOf _ => true
  | _ => false

def admitsAtomic (a : ItemType) (t : AtomicType) : Bool :=
  match a with
  | .any => true
  | .atomic u => t.instanceOf u
  | _ => false

def admitsKind (a : ItemType) (k : NodeKind) : Bool :=
  match a with
  | .any | .node => true
  | .kind l => l == k
  | _ => false

def admitsFunction (a : ItemType) (s : Signature) : Bool :=
  match a with
  | .any | .function => true
  | .functionOf t => s.instanceOf t
  | _ => false

end ItemType

/-! ### Text -/

mutual

def ItemType.render : ItemType → String
  | .any => "item()"
  | .node => "node()"
  | .kind k => k.name ++ "()"
  | .atomic t => t.name
  | .function => "function(*)"
  | .functionOf s => "(" ++ s.render ++ ")"

def SeqType.render : SeqType → String
  | ⟨i, o⟩ => if o = .zero then "empty-sequence()" else i.render ++ o.suffix

def Signature.render : Signature → String
  | ⟨ps, r⟩ => "function(" ++ renderSeqTypes ps ++ ") as " ++ r.render

def renderSeqTypes : List SeqType → String
  | [] => ""
  | [s] => s.render
  | s :: ss => s.render ++ ", " ++ renderSeqTypes ss

end

end TreeQuery
