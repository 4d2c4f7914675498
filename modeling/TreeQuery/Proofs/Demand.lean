import TreeQuery.Expr.Inline
/-!
# Demands on all nodes of an expression

A `Demand` says what is asked of each node, by its form and its static type. What is asked may
differ from one function body to another: it goes by a state, which `enter` tells for the body from
that around the function and the parameters. `Expr.Satisfies` asks it of all nodes, in function
bodies too; of an inline function it asks something on its own.
-/

namespace TreeQuery

/-- What is asked of the nodes of an expression. -/
structure Demand (α : Type) where
  /-- The state in the body of a function with these parameters. -/
  enter : α → List Variable → α
  node : α → Form → StaticType → Prop
  /-- What is asked of the signature and the parameters of an inline function. -/
  inline : Signature → List Variable → Prop := fun _ _ => True

variable {α : Type}

mutual

def Expr.Satisfies (D : Demand α) (a : α) : Expr → Prop
  | ⟨form, type, _⟩ => D.node a form type ∧ form.Satisfies D a

def Form.Satisfies (D : Demand α) (a : α) : Form → Prop
  | .literal _ | .contextItem | .position _ | .reference _ | .failure _ => True
  | .function f => f.Satisfies D a
  | .conjunction es | .disjunction es | .call _ es | .step _ _ es | .relativePath es | .map es =>
    AllSatisfy D a es
  | .comparison _ _ e d | .containsText e d => e.Satisfies D a ∧ d.Satisfies D a
  | .path e es | .filter e es | .apply e es => e.Satisfies D a ∧ AllSatisfy D a es
  | .conditional condition yes no => condition.Satisfies D a ∧ yes.Satisfies D a ∧ no.Satisfies D a
  | .check e _ _ => e.Satisfies D a

def FunctionItem.Satisfies (D : Demand α) (a : α) : FunctionItem → Prop
  | .inline _ s params body => D.inline s params ∧ body.Satisfies D (D.enter a params)
  | .coerced _ _ inner => inner.Satisfies D a

def AllSatisfy (D : Demand α) (a : α) : List Expr → Prop
  | [] => True
  | e :: es => e.Satisfies D a ∧ AllSatisfy D a es

end

variable {D : Demand α} {a : α}

theorem allSatisfy_iff {es : List Expr} : AllSatisfy D a es ↔ ∀ e ∈ es, e.Satisfies D a := by
  induction es with
  | nil => simp [AllSatisfy]
  | cons e es ih => simp [AllSatisfy, ih]

@[simp] theorem allSatisfy_append {es ds : List Expr} :
    AllSatisfy D a (es ++ ds) ↔ AllSatisfy D a es ∧ AllSatisfy D a ds := by
  simp only [allSatisfy_iff, List.mem_append, or_imp, forall_and]

@[simp] theorem Expr.satisfies_at? {e : Expr} {l : Option Location} :
    (e.at? l).Satisfies D a ↔ e.Satisfies D a := by
  obtain ⟨form, τ, l'⟩ := e
  simp only [at?, Satisfies]

theorem Expr.Satisfies.form {e : Expr} (h : e.Satisfies D a) : e.form.Satisfies D a := by
  obtain ⟨form, τ, l⟩ := e
  exact h.2

/-- The body that a call of the function evaluates in the end. -/
def FunctionItem.innermost : FunctionItem → Expr
  | .inline _ _ _ body => body
  | .coerced _ _ inner => inner.innermost

/-! ### Demands that follow from others -/

section Combine

variable {B C : Demand α}

/-- Whether a demand follows from two others. -/
structure Demand.FollowsFrom (D B C : Demand α) : Prop where
  enterLeft : B.enter = D.enter
  enterRight : C.enter = D.enter
  inline : ∀ s params, B.inline s params → C.inline s params → D.inline s params
  node : ∀ a form τ, B.node a form τ → form.Satisfies B a → C.node a form τ →
    form.Satisfies C a → D.node a form τ

mutual

theorem Expr.Satisfies.combine (H : D.FollowsFrom B C) {a : α} :
    {e : Expr} → e.Satisfies B a → e.Satisfies C a →
    e.Satisfies D a
  | ⟨form, τ, _⟩, h, k =>
    ⟨H.node a form τ h.1 h.2 k.1 k.2, (show form.Satisfies B a from h.2).combine H k.2⟩

theorem Form.Satisfies.combine (H : D.FollowsFrom B C) {a : α} :
    {form : Form} → form.Satisfies B a →
    form.Satisfies C a → form.Satisfies D a
  | .literal _, _, _ | .contextItem, _, _ | .position _, _, _ | .reference _, _,
    _ | .failure _, _, _ => trivial
  | .function f, h, k => (show f.Satisfies B a from h).combine H k
  | .conjunction _, h, k | .disjunction _, h, k | .call _ _, h, k | .step _ _ _, h,
    k | .relativePath _, h, k
  | .map _, h, k => AllSatisfy.combine H h k
  | .comparison _ _ _ _, h, k | .containsText _ _, h, k => ⟨h.1.combine H k.1, h.2.combine H k.2⟩
  | .path _ _, h, k | .filter _ _, h, k | .apply _ _, h, k =>
    ⟨h.1.combine H k.1, AllSatisfy.combine H h.2 k.2⟩
  | .conditional _ _ _, h, k => ⟨h.1.combine H k.1, h.2.1.combine H k.2.1, h.2.2.combine H k.2.2⟩
  | .check _ _ _, h, k => Expr.Satisfies.combine H h k

theorem FunctionItem.Satisfies.combine (H : D.FollowsFrom B C) {a : α} :
    {f : FunctionItem} → f.Satisfies B a →
    f.Satisfies C a → f.Satisfies D a
  | .inline _ s params body, h, k => by
    rw [FunctionItem.Satisfies] at h k ⊢
    have hbody : body.Satisfies B (D.enter a params) := H.enterLeft ▸ h.2
    exact ⟨H.inline s params h.1 k.1, hbody.combine H (H.enterRight ▸ k.2)⟩
  | .coerced _ _ inner, h, k => (show inner.Satisfies B a from h).combine H k

theorem AllSatisfy.combine (H : D.FollowsFrom B C) {a : α} : {es : List Expr} → AllSatisfy B a es →
    AllSatisfy C a es → AllSatisfy D a es
  | [], _, _ => trivial
  | _ :: _, h, k => ⟨h.1.combine H k.1, AllSatisfy.combine H h.2 k.2⟩

end

theorem Expr.Satisfies.weaken (henter : C.enter = D.enter)
    (hinline : ∀ s params, D.inline s params → C.inline s params)
    (hnode : ∀ a form τ, D.node a form τ → form.Satisfies D a → C.node a form τ) {a : α} {e : Expr}
    (h : e.Satisfies D a) : e.Satisfies C a :=
  h.combine ⟨henter.symm, henter.symm, fun s params h _ => hinline s params h,
    fun a form τ h hform _ _ => hnode a form τ h hform⟩ h

end Combine

/-! ### States that demand nothing -/

section Idle

variable {S : α → Prop}

/-- Whether nothing is demanded in some states, which are kept within functions. -/
structure Demand.Idle (D : Demand α) (S : α → Prop) : Prop where
  enter : ∀ a params, S a → S (D.enter a params)
  inline : ∀ s params, D.inline s params
  node : ∀ a form τ, S a → D.node a form τ

mutual

theorem Expr.satisfies_of_idle (H : D.Idle S) {a : α} (ha : S a) : (e : Expr) → e.Satisfies D a
  | ⟨form, τ, _⟩ => ⟨H.node a form τ ha, Form.satisfies_of_idle H ha form⟩

theorem Form.satisfies_of_idle (H : D.Idle S) {a : α} (ha : S a) :
    (form : Form) → form.Satisfies D a
  | .literal _ | .contextItem | .position _ | .reference _ | .failure _ => trivial
  | .function f => FunctionItem.satisfies_of_idle H ha f
  | .conjunction es | .disjunction es | .call _ es | .step _ _ es | .relativePath es | .map es =>
    allSatisfy_of_idle H ha es
  | .comparison _ _ e d | .containsText e d =>
    ⟨Expr.satisfies_of_idle H ha e, Expr.satisfies_of_idle H ha d⟩
  | .path e es | .filter e es | .apply e es =>
    ⟨Expr.satisfies_of_idle H ha e, allSatisfy_of_idle H ha es⟩
  | .conditional condition yes no =>
    ⟨Expr.satisfies_of_idle H ha condition, Expr.satisfies_of_idle H ha yes,
      Expr.satisfies_of_idle H ha no⟩
  | .check e _ _ => Expr.satisfies_of_idle H ha e

theorem FunctionItem.satisfies_of_idle (H : D.Idle S) {a : α} (ha : S a) :
    (f : FunctionItem) → f.Satisfies D a
  | .inline _ s params body => by
    rw [FunctionItem.Satisfies]
    exact ⟨H.inline s params, Expr.satisfies_of_idle H (H.enter a params ha) body⟩
  | .coerced _ _ inner => FunctionItem.satisfies_of_idle H ha inner

theorem allSatisfy_of_idle (H : D.Idle S) {a : α} (ha : S a) : (es : List Expr) → AllSatisfy D a es
  | [] => trivial
  | e :: es => ⟨Expr.satisfies_of_idle H ha e, allSatisfy_of_idle H ha es⟩

end

/-- A function is as demanded wherever nothing is demanded of function bodies. -/
theorem FunctionItem.satisfies_of_enter (H : D.Idle S) {a : α}
    (ha : ∀ params, S (D.enter a params)) : (f : FunctionItem) → f.Satisfies D a
  | .inline _ s params body => by
    rw [FunctionItem.Satisfies]
    exact ⟨H.inline s params, Expr.satisfies_of_idle H (ha params) body⟩
  | .coerced _ _ inner => FunctionItem.satisfies_of_enter H ha inner

end Idle

end TreeQuery
