import TreeQuery.Expr.Dependency
/-!
# What an expression asks of its focus

An expression can look at the item in focus, in order to give it, to start a step from it or to
start a path from it, and at where that item stands. `Expr.asks` tells these apart, which
dependencies do not: a window looks at the position too, but unlike a call it does not mind if there
is no item in focus. An expression that asks for no more than a window does is `Unfocused`: it needs
no focus at all. Operands with a focus of their own do not ask anything of the focus around them.
-/

namespace TreeQuery

/-- Something that an expression can look at in its focus. -/
inductive FocusPart where
  /-- The item, which is to be given, or is where a step starts. -/
  | item
  /-- The item that a path without a root starts from. -/
  | root
  /-- The position that a window is compared with. -/
  | number
  /-- The position or the size that is called for. -/
  | place
deriving DecidableEq

/-- What depends on the focus is seen in its dependencies. -/
def FocusPart.dependency : FocusPart → Dependency
  | .item | .root => .context
  | .number | .place => .position

mutual

def Expr.asks (p : FocusPart) : Expr → Bool
  | ⟨form, _, _⟩ => form.asks p

def Form.asks (p : FocusPart) : Form → Bool
  | .literal _ | .function _ | .reference _ | .failure _ | .map [] => false
  | .contextItem | .step .. => p == .item
  | .relativePath _ => p == .root
  | .position _ => p == .number
  | .conjunction es | .disjunction es => anyAsks p es
  | .comparison _ _ left right => left.asks p || right.asks p
  | .call f args => (p == .place && (f == .position || f == .last)) || anyAsks p args
  | .path e _ | .map (e :: _) | .filter e _ | .check e _ _ => e.asks p
  | .containsText input query => input.asks p || query.asks p
  | .conditional condition yes no => condition.asks p || yes.asks p || no.asks p
  | .apply f args => f.asks p || anyAsks p args

def anyAsks (p : FocusPart) : List Expr → Bool
  | [] => false
  | e :: es => e.asks p || anyAsks p es

end

variable {p : FocusPart}

theorem anyAsks_eq_any (es : List Expr) : anyAsks p es = es.any (Expr.asks p) := by
  induction es with
  | nil => rfl
  | cons e es ih => rw [anyAsks, List.any_cons, ih]

/-! ### Parts of the focus and dependencies -/

mutual

theorem Expr.dependsOn_of_asks : (e : Expr) → e.asks p = true → e.dependsOn p.dependency = true
  | ⟨form, _, _⟩, h => by
    rw [Expr.asks] at h
    rw [Expr.dependsOn]
    exact Form.dependsOn_of_asks form h

theorem Form.dependsOn_of_asks : (form : Form) → form.asks p = true →
    form.dependsOn p.dependency = true
  | .literal _, h | .function _, h | .reference _, h | .failure _, h | .map [], h => by
    simp [Form.asks] at h
  | .contextItem, h | .step .., h | .relativePath _, h => by
    obtain rfl : p = _ := by simpa [Form.asks] using h
    rfl
  | .position _, h => by
    obtain rfl : p = _ := by simpa [Form.asks] using h
    rfl
  | .conjunction es, h | .disjunction es, h => by
    rw [Form.dependsOn]
    exact anyDependsOn_of_asks es (by simpa [Form.asks] using h)
  | .comparison _ _ e d, h | .containsText e d, h => by
    rw [Form.asks, Bool.or_eq_true] at h
    rw [Form.dependsOn, Bool.or_eq_true]
    exact h.imp (Expr.dependsOn_of_asks e) (Expr.dependsOn_of_asks d)
  | .call f args, h => by
    rw [Form.asks, Bool.or_eq_true] at h
    rw [Form.dependsOn, Bool.or_eq_true]
    refine h.imp (fun hcall => ?_) (anyDependsOn_of_asks args)
    simp only [Bool.and_eq_true, Bool.or_eq_true, beq_iff_eq] at hcall
    obtain ⟨rfl, rfl | rfl⟩ := hcall <;> rfl
  | .path e _, h | .map (e :: _), h | .filter e _, h => by
    rw [Form.dependsOn, Bool.or_eq_true]
    exact .inl (Expr.dependsOn_of_asks e (by simpa [Form.asks] using h))
  | .conditional condition yes no, h => by
    rw [Form.asks, Bool.or_eq_true, Bool.or_eq_true] at h
    rw [Form.dependsOn, Bool.or_eq_true, Bool.or_eq_true]
    exact h.imp (Or.imp (Expr.dependsOn_of_asks condition) (Expr.dependsOn_of_asks yes))
      (Expr.dependsOn_of_asks no)
  | .apply f args, h => by
    rw [Form.asks, Bool.or_eq_true] at h
    rw [Form.dependsOn, Bool.or_eq_true, Bool.or_eq_true]
    exact h.imp (fun h => .inr (Expr.dependsOn_of_asks f h)) (anyDependsOn_of_asks args)
  | .check e _ _, h => by
    rw [Form.dependsOn]
    exact Expr.dependsOn_of_asks e (by simpa [Form.asks] using h)

theorem anyDependsOn_of_asks : (es : List Expr) → anyAsks p es = true →
    anyDependsOn p.dependency es = true
  | [], h => by simp [anyAsks] at h
  | e :: es, h => by
    rw [anyAsks, Bool.or_eq_true] at h
    rw [anyDependsOn, Bool.or_eq_true]
    exact h.imp (Expr.dependsOn_of_asks e) (anyDependsOn_of_asks es)

end

/-! ### Expressions that need no focus -/

/-- Whether the form asks for nothing that is only there where there is a focus. -/
def Form.Unfocused (form : Form) : Prop := ∀ p, p ≠ .number → form.asks p = false

/-- Whether the expression asks for nothing that is only there where there is a focus. -/
def Expr.Unfocused (e : Expr) : Prop := ∀ p, p ≠ .number → e.asks p = false

@[simp] theorem Expr.unfocused_mk {form : Form} {τ : StaticType} {l : Option Location} :
    (⟨form, τ, l⟩ : Expr).Unfocused ↔ form.Unfocused := by
  simp only [Expr.Unfocused, Expr.asks, Form.Unfocused]

@[simp] theorem Expr.unfocused_at? {e : Expr} {l : Option Location} :
    (e.at? l).Unfocused ↔ e.Unfocused := by
  obtain ⟨form, τ, l'⟩ := e
  simp only [at?, unfocused_mk]

@[simp] theorem Expr.unfocused_of {form : Form} : (Expr.of form).Unfocused ↔ form.Unfocused :=
  unfocused_mk

theorem Expr.Unfocused.form {e : Expr} (h : e.Unfocused) : e.form.Unfocused := by
  obtain ⟨form, τ, l⟩ := e
  exact unfocused_mk.mp h

namespace Form

theorem unfocused_iff_operands {form : Form} (es : List Expr)
    (h : ∀ p, p ≠ .number → form.asks p = anyAsks p es) :
    form.Unfocused ↔ ∀ e ∈ es, e.Unfocused := by
  constructor
  · intro hform e he p hp
    have := hform p hp
    rw [h p hp, anyAsks_eq_any, List.any_eq_false] at this
    simpa using this e he
  · intro hes p hp
    rw [h p hp, anyAsks_eq_any, List.any_eq_false]
    exact fun e he => by simp [hes e he p hp]

@[simp] theorem unfocused_literal {values : List Atomic} : (literal values).Unfocused :=
  fun _ _ => rfl

@[simp] theorem unfocused_function {f : FunctionItem} : (function f).Unfocused := fun _ _ => rfl

@[simp] theorem unfocused_reference {v : Variable} : (reference v).Unfocused := fun _ _ => rfl

@[simp] theorem unfocused_failure {e : Error} : (failure e).Unfocused := fun _ _ => rfl

@[simp] theorem unfocused_position {w : Window} : (position w).Unfocused :=
  fun p hp => by simp [Form.asks, hp]

@[simp] theorem not_unfocused_contextItem : ¬contextItem.Unfocused :=
  fun h => by simpa [Form.asks] using h .item (by decide)

@[simp] theorem not_unfocused_step {axis : Axis} {test : NodeTest} {es : List Expr} :
    ¬(step axis test es).Unfocused :=
  fun h => by simpa [Form.asks] using h .item (by decide)

@[simp] theorem not_unfocused_relativePath {es : List Expr} : ¬(relativePath es).Unfocused :=
  fun h => by simpa [Form.asks] using h .root (by decide)

@[simp] theorem unfocused_conjunction {es : List Expr} :
    (conjunction es).Unfocused ↔ ∀ e ∈ es, e.Unfocused :=
  unfocused_iff_operands es fun p _ => by rw [Form.asks]

@[simp] theorem unfocused_disjunction {es : List Expr} :
    (disjunction es).Unfocused ↔ ∀ e ∈ es, e.Unfocused :=
  unfocused_iff_operands es fun p _ => by rw [Form.asks]

@[simp] theorem unfocused_comparison {style : CompareStyle} {op : CompareOp} {left right : Expr} :
    (comparison style op left right).Unfocused ↔ left.Unfocused ∧ right.Unfocused := by
  rw [unfocused_iff_operands [left, right] fun p _ => by simp [Form.asks, anyAsks]]
  simp

@[simp] theorem unfocused_call {f : Builtin} {args : List Expr} :
    (call f args).Unfocused ↔ (f ≠ .position ∧ f ≠ .last) ∧ ∀ e ∈ args, e.Unfocused := by
  constructor
  · intro h
    have hf := h .place (by decide)
    simp only [Form.asks, Bool.or_eq_false_iff] at hf
    have hf : f ≠ .position ∧ f ≠ .last := by simpa using hf.1
    refine ⟨hf, (unfocused_iff_operands args fun p _ => ?_).mp h⟩
    simp [Form.asks, hf]
  · rintro ⟨hf, h⟩
    exact (unfocused_iff_operands args fun p _ => by simp [Form.asks, hf]).mpr h

@[simp] theorem unfocused_path {root : Expr} {steps : List Expr} :
    (path root steps).Unfocused ↔ root.Unfocused := by
  simp only [Form.Unfocused, Form.asks, Expr.Unfocused]

@[simp] theorem unfocused_map {operands : List Expr} :
    (map operands).Unfocused ↔ ∀ e ∈ operands.head?, e.Unfocused := by
  cases operands <;> simp [Form.Unfocused, Form.asks, Expr.Unfocused]

@[simp] theorem unfocused_filter {root : Expr} {es : List Expr} :
    (filter root es).Unfocused ↔ root.Unfocused := by
  simp only [Form.Unfocused, Form.asks, Expr.Unfocused]

@[simp] theorem unfocused_check {operand : Expr} {target : SeqType} {promote : Bool} :
    (check operand target promote).Unfocused ↔ operand.Unfocused := by
  simp only [Form.Unfocused, Form.asks, Expr.Unfocused]

@[simp] theorem unfocused_containsText {input query : Expr} :
    (containsText input query).Unfocused ↔ input.Unfocused ∧ query.Unfocused := by
  rw [unfocused_iff_operands [input, query] fun p _ => by simp [Form.asks, anyAsks]]
  simp

@[simp] theorem unfocused_conditional {condition yes no : Expr} :
    (conditional condition yes no).Unfocused ↔ condition.Unfocused ∧ yes.Unfocused ∧
    no.Unfocused := by
  rw [unfocused_iff_operands [condition, yes, no] fun p _ => by
    simp [Form.asks, anyAsks, Bool.or_assoc]]
  simp

@[simp] theorem unfocused_apply {f : Expr} {args : List Expr} :
    (apply f args).Unfocused ↔ f.Unfocused ∧ ∀ e ∈ args, e.Unfocused := by
  rw [unfocused_iff_operands (f :: args) fun p _ => by simp [Form.asks, anyAsks]]
  simp

end Form

theorem Expr.unfocused_of_independent {e : Expr} (hcontext : e.dependsOn .context = false)
    (hposition : e.dependsOn .position = false) : e.Unfocused := by
  intro p _
  refine Bool.eq_false_iff.mpr fun h => ?_
  have hdepends := e.dependsOn_of_asks h
  cases p with
  | item | root => exact absurd hdepends (by simp [FocusPart.dependency, hcontext])
  | number | place => exact absurd hdepends (by simp [FocusPart.dependency, hposition])

end TreeQuery
