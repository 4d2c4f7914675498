import TreeQuery.Compile.Expression
import TreeQuery.Item.Conformance
import TreeQuery.Proofs.Typing.Subtype
/-!
# The static types of expressions

`Expr.Infers K e τ` says that `τ` is a static type of `e` where the item in focus is known to be of
the types in `K`. It follows the form of the expression and takes no notice of the types that its
nodes are annotated with, so that it carries over to another focus, and to an expression that is the
same. An expression may have several static types: an empty literal has items of every type, and a
failure has every type.

`Expr.Annotated Γ K e` says that the annotation of every node is one of its static types, operands
with a focus of their own being annotated for what is known of the items in it. Variables are those
of `Γ`, and function items are good: their body is annotated, and meets the result type.
-/

namespace TreeQuery

/-- Types that an item is known to be of. -/
abbrev Knowledge := ItemType → Prop

namespace Knowledge

/-- Whether an item of all these types is of type `t`. -/
def Implies (K : Knowledge) (t : ItemType) : Prop := t = .any ∨ ∃ u, K u ∧ u.instanceOf t = true

def Refines (L K : Knowledge) : Prop := ∀ t, K t → L.Implies t

def Holds (K : Knowledge) (forest : Forest) (item : Item) : Prop :=
  ∀ t, K t → item.isInstance forest t = true

end Knowledge

def filterType (input : StaticType) (predicates : List Expr) : StaticType :=
  (filteredType input predicates).getD (.of input.item .zero)

def checkType (t : StaticType) (target : SeqType) : StaticType :=
  .make (if t.item.instanceOf target.item then t.item else target.item)
    ((t.occurrence.intersect target.occurrence).getD target.occurrence)
    (t.size.filter target.occurrence.admits)

def compareType (style : CompareStyle) (left right : StaticType) : StaticType :=
  match style with
  | .general => .boolean
  | .value =>
    .of (.atomic .boolean) (if left.occurrence.min == 0 || right.occurrence.min == 0 then
      .zeroOrOne else .one)

/-- The static type of a path with steps of the given types, from a root with a number of items. -/
def pathType (start : Occurrence) (steps : List StaticType) : StaticType :=
  .of ((steps.getLast?.map StaticType.item).getD .any)
    (steps.foldl (fun o t => o.multiply t.occurrence) start)

def mapType (operands : List StaticType) : StaticType :=
  .make ((operands.getLast?.map StaticType.item).getD .any)
    (operands.foldl (fun o t => o.multiply t.occurrence) .one)
    (operands.foldl (fun size t => do
      let a ← size
      let b ← t.size
      if a * b < Nat.pow 2 64 then some (a * b) else none) (some 1))

/-- Whether `τ` is a static type of constants. There are never more of them than a word can
count. -/
def TypesConstants (τ : StaticType) (values : List Atomic) : Prop :=
  values.length ≤ noEnd ∧ (τ = literalType values ∨ (values = [] ∧ ∃ i, τ = .of i .zero))

mutual

/-- Whether `τ` is a static type of an expression, by what is known of the item in focus. -/
def Expr.Infers (K : Knowledge) : Expr → StaticType → Prop
  | ⟨form, _, _⟩, τ => form.Infers K τ

def Form.Infers (K : Knowledge) : Form → StaticType → Prop
  | .literal values, τ => TypesConstants τ values
  | .function f, τ => τ = .of (.functionOf f.signature) .one
  | .contextItem, τ => τ = .anything ∨ ∃ t, K.Implies t ∧ τ = .of t .one
  | .position _, τ | .conjunction _, τ | .disjunction _, τ | .containsText .., τ => τ = .boolean
  | .comparison style _ left right, τ =>
    ∃ σ ρ, left.Infers K σ ∧ right.Infers K ρ ∧ τ = compareType style σ ρ
  | .call .trace (arg :: _), τ => arg.Infers K τ
  | .call f _, τ => τ = f.resultType []
  | .step axis test predicates, τ => τ = filterType (stepType axis test) predicates
  | .path root steps, τ =>
    ∃ σ σs, root.Infers K σ ∧ InfersChain (fun t => ∃ ρ, root.Infers K ρ ∧ ρ.item = t) steps σs ∧
      τ = pathType σ.occurrence σs
  | .relativePath steps, τ => ∃ σs, InfersChain K steps σs ∧ τ = pathType .one σs
  | .map operands, τ => ∃ σs, InfersChain K operands σs ∧ τ = mapType σs
  | .filter root predicates, τ => ∃ σ, root.Infers K σ ∧ τ = filterType σ predicates
  | .conditional _ yes no, τ => ∃ σ ρ, yes.Infers K σ ∧ no.Infers K ρ ∧ τ = σ.union ρ
  | .reference v, τ => τ = .ofSeqType v.type
  | .apply f _, τ => τ = .anything ∨ ∃ σ s, f.Infers K σ ∧
    σ.item = .functionOf s ∧ τ = .ofSeqType s.result
  | .check operand target _, τ => ∃ σ, operand.Infers K σ ∧ τ = checkType σ target
  | .failure _, _ => True

/-- Whether `τs` are static types of expressions each of which has the items of the one before in
focus. -/
def InfersChain (K : Knowledge) : List Expr → List StaticType → Prop
  | [], τs => τs = []
  | e :: es, τs =>
    ∃ τ σs, e.Infers K τ ∧ InfersChain (fun t => ∃ ρ, e.Infers K ρ ∧ ρ.item = t) es
      σs ∧ τs = τ :: σs

end

def Expr.Offers (K : Knowledge) (e : Expr) : Knowledge := fun t => ∃ σ, e.Infers K σ ∧ σ.item = t

def StepOffers (axis : Axis) (test : NodeTest) : Knowledge := fun t =>
  ∀ f : Forest, ∀ m, ∀ n ∈ f.axisNodes m axis, test.passes f n = true →
    t.admitsKind (f.kind n) = true

/-- Whether every value of an expression is seen to be of a type: by its annotation, or in all
branches. -/
def Expr.Meets (target : SeqType) : Expr → Prop
  | ⟨.conditional _ yes no, τ, _⟩ =>
    τ.instanceOf target = true ∨ (yes.Meets target ∧ no.Meets target)
  | ⟨_, τ, _⟩ => τ.instanceOf target = true

mutual

/-- Whether all nodes of an expression are annotated with static types of theirs. -/
def Expr.Annotated (Γ : List Variable) (K : Knowledge) : Expr → Prop
  | ⟨form, τ, _⟩ => form.Infers K τ ∧ form.Annotated Γ K

def Form.Annotated (Γ : List Variable) (K : Knowledge) : Form → Prop
  | .literal _ | .contextItem | .position _ | .failure _ => True
  | .function f => f.Good
  | .conjunction operands | .disjunction operands => AnnotatedAll Γ K operands
  | .comparison _ _ left right => left.Annotated Γ K ∧ right.Annotated Γ K
  | .call _ args => AnnotatedAll Γ K args
  | .step axis test predicates => AnnotatedAll Γ (StepOffers axis test) predicates
  | .path root steps => root.Annotated Γ K ∧ AnnotatedChain Γ (root.Offers K) steps
  | .relativePath steps | .map steps => AnnotatedChain Γ K steps
  | .filter root predicates => root.Annotated Γ K ∧ AnnotatedAll Γ (root.Offers K) predicates
  | .containsText input query => input.Annotated Γ K ∧ query.Annotated Γ K
  | .conditional condition yes no => condition.Annotated Γ K ∧ yes.Annotated Γ K ∧ no.Annotated Γ K
  | .reference v => Γ.find? (·.name == v.name) = some v
  | .apply f args => f.Annotated Γ K ∧ AnnotatedAll Γ K args
  | .check operand _ _ => operand.Annotated Γ K

/-- Whether a function item keeps what its signature promises of the result. -/
def FunctionItem.Good : FunctionItem → Prop
  | .inline _ signature params body =>
    signature.params = params.map Variable.type ∧
      (∃ Γ, body.Annotated (params.reverse ++ Γ) fun _ => False) ∧
      body.Meets signature.result
  | .coerced _ _ inner => inner.Good

def AnnotatedAll (Γ : List Variable) (K : Knowledge) : List Expr → Prop
  | [] => True
  | e :: es => e.Annotated Γ K ∧ AnnotatedAll Γ K es

/-- Whether each expression is annotated for the items of the one before in focus. -/
def AnnotatedChain (Γ : List Variable) (K : Knowledge) : List Expr → Prop
  | [] => True
  | e :: es => e.Annotated Γ K ∧ AnnotatedChain Γ (e.Offers K) es

end

def Item.Good : Item → Prop
  | .function f => f.Good
  | _ => True

end TreeQuery
