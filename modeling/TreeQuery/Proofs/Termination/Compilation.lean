import TreeQuery.Proofs.Termination.Predicates
/-!
# The weight of what is compiled

Compilation leaves no more than there was (`Expr.compile_weight`), and so does simplification, to
every depth (`optimizerWithin_lightens`).
-/

namespace TreeQuery

section

variable {opt : Optimizer} {e : Expr}

theorem deferring_weight {old : Expr} {x : Compile Expr} (h : (deferring old x).Gives e) :
    x.Gives e ∨ e.weight = 1 := by
  unfold deferring at h
  split at h
  · simp only [Logged.gives_prepend, defer, Logged.gives_bind, gives_remark, Logged.gives_pure] at h
    obtain ⟨-, -, rfl⟩ := h
    exact .inr (by rw [Expr.weight, Form.weight] <;> simp)
  · exact .inl h

mutual

theorem Expr.compile_weight (hlight : opt.Lightens) :
    {e e' : Expr} → {scope : Scope} → (e.compile opt scope).Gives e' → e'.weight ≤ e.weight
  | ⟨form, τ, l⟩, e', scope, h => by
    rw [Expr.compile] at h
    exact Form.compile_weight hlight h

theorem Form.compile_weight (hlight : opt.Lightens) :
    {form : Form} → {e' : Expr} → {scope : Scope} → {τ : StaticType} → {l : Option Location} →
    (form.compile opt scope τ l).Gives e' → e'.weight ≤ form.weight
  | .literal _, e', scope, τ, l, h | .position _, e', scope, τ, l, h | .failure _, e', scope, τ, l, h => by
    simp only [Form.compile, Logged.gives_pure] at h
    subst h
    exact Nat.le_of_eq (by rw [Expr.weight])
  | .contextItem, e', scope, τ, l, h => by
    rw [Form.compile] at h
    split at h
    · obtain rfl := Logged.gives_pure.mp h
      exact Nat.le_of_eq (by rw [Expr.weight])
    · simp at h
  | .function f, e', scope, τ, l, h => by
    simp only [Form.compile, Logged.gives_bind, Logged.gives_pure] at h
    obtain ⟨f', hf', rfl⟩ := h
    have := FunctionItem.compile_weight hlight hf'
    rw [Expr.weight_at?, Expr.weight_of, Form.weight, Form.weight]
    omega
  | .conjunction _, e', scope, τ, l, h | .disjunction _, e', scope, τ, l, h => by
    simp only [Form.compile, Logged.gives_bind] at h
    obtain ⟨operands', hoperands', h⟩ := h
    have hoperands := compileAll_weight hlight 6 hoperands'
    have hlogic := optimizeLogic_weight hlight h
    rw [Form.weight]
    omega
  | .comparison .., e', scope, τ, l, h => by
    simp only [Form.compile, Logged.gives_bind] at h
    obtain ⟨left', hleft', right', hright', h⟩ := h
    have hleft := Expr.compile_weight hlight hleft'
    have hright := Expr.compile_weight hlight hright'
    have hcomparison := optimizeComparison_weight h
    rw [Form.weight]
    omega
  | .call .., e', scope, τ, l, h => by
    simp only [Form.compile, Logged.gives_bind] at h
    obtain ⟨-, -, args', hargs', h⟩ := h
    have hargs := compileAll_weight hlight 1 hargs'
    have hcall := optimizeCall_weight hlight h
    rw [Form.weight]
    omega
  | .step .., e', scope, τ, l, h => by
    simp only [Form.compile, Logged.gives_bind] at h
    obtain ⟨-, -, predicates', hpredicates', h⟩ := h
    have hpredicates := compilePredicates_weight hlight hpredicates'
    have hstep := optimizeStep_weight hlight h
    rw [Form.weight]
    omega
  | .path .., e', scope, τ, l, h => by
    simp only [Form.compile, Logged.gives_bind] at h
    obtain ⟨root', hroot', steps', hsteps', h⟩ := h
    have hroot := Expr.compile_weight hlight hroot'
    have hsteps := compileChain_weight hlight hsteps'
    have hpath := optimizePath_some_weight h
    rw [Form.weight]
    omega
  | .relativePath _, e', scope, τ, l, h => by
    simp only [Form.compile, Logged.gives_bind] at h
    obtain ⟨steps', hsteps', h⟩ := h
    have hsteps := compileChain_weight hlight hsteps'
    have hpath := optimizePath_none_weight h
    rw [Form.weight]
    omega
  | .map _, e', scope, τ, l, h => by
    simp only [Form.compile, Logged.gives_bind] at h
    obtain ⟨operands', hoperands', h⟩ := h
    have hoperands := compileChain_weight hlight hoperands'
    have hmap := optimizeMap_weight h
    rw [Form.weight]
    omega
  | .filter .., e', scope, τ, l, h => by
    simp only [Form.compile, Logged.gives_bind] at h
    obtain ⟨root', hroot', predicates', hpredicates', h⟩ := h
    have hroot := Expr.compile_weight hlight hroot'
    have hpredicates := compilePredicates_weight hlight hpredicates'
    have hfilter := optimizeFilter_weight hlight h
    rw [Form.weight]
    omega
  | .containsText .., e', scope, τ, l, h => by
    simp only [Form.compile, Logged.gives_bind] at h
    obtain ⟨input', hinput', query', hquery', h⟩ := h
    have hinput := Expr.compile_weight hlight hinput'
    have hquery := Expr.compile_weight hlight hquery'
    have hsearch := optimizeSearch_weight h
    rw [Form.weight]
    omega
  | .conditional .., e', scope, τ, l, h => by
    simp only [Form.compile, Logged.gives_bind] at h
    obtain ⟨condition', hcondition', yes', hyes', no', hno', h⟩ := h
    have hcondition := Expr.compile_weight hlight hcondition'
    have hyes := Expr.compile_weight hlight hyes'
    have hno := Expr.compile_weight hlight hno'
    have hconditional := optimizeConditional_weight hlight h
    rw [Form.weight]
    omega
  | .reference v, e', scope, τ, l, h => by
    rw [Form.compile] at h
    split at h
    · obtain rfl := Logged.gives_pure.mp h
      simp only [Expr.weight_at?, Expr.weight_of, Form.weight, Nat.le_refl]
    · simp at h
  | .apply .., e', scope, τ, l, h => by
    simp only [Form.compile, Logged.gives_bind] at h
    obtain ⟨f', hf', args', hargs', h⟩ := h
    have hf := Expr.compile_weight hlight hf'
    have hargs := compileAll_weight hlight 1 hargs'
    have happly := optimizeApply_weight h
    rw [Form.weight]
    omega
  | .check .., e', scope, τ, l, h => by
    simp only [Form.compile, Logged.gives_bind] at h
    obtain ⟨operand', hoperand', h⟩ := h
    rw [Form.weight]
    exact Nat.le_trans (Expr.checkAs_weight hlight h) (Expr.compile_weight hlight hoperand')

theorem FunctionItem.compile_weight (hlight : opt.Lightens) :
    {f f' : FunctionItem} → {scope : Scope} → (f.compile opt scope).Gives f' →
    f'.weight ≤ f.weight
  | .inline name signature params body, f', scope, h => by
    simp only [FunctionItem.compile, Logged.gives_bind, Logged.gives_pure] at h
    obtain ⟨body₁, hbody₁, body₂, hbody₂, rfl⟩ := h
    rw [FunctionItem.weight, FunctionItem.weight]
    exact Nat.le_trans (Expr.checkAs_weight hlight hbody₂) (Expr.compile_weight hlight hbody₁)
  | .coerced .., f', scope, h => by
    simp only [FunctionItem.compile, Logged.gives_pure] at h
    exact h ▸ Nat.le_refl _

theorem compileAll_weight (hlight : opt.Lightens) (share : Nat) :
    {es es' : List Expr} → {scope : Scope} → (compileAll opt scope es).Gives es' →
    weightAll share es' ≤ weightAll share es
  | [], es', scope, h => Logged.gives_pure.mp (by rwa [compileAll] at h) ▸ Nat.le_refl _
  | e :: es, es', scope, h => by
    simp only [compileAll, Logged.gives_bind, Logged.gives_pure] at h
    obtain ⟨e', he', rest', hrest', rfl⟩ := h
    have hfirst := Expr.compile_weight hlight he'
    have hrest := compileAll_weight hlight share hrest'
    simp only [weightAll]
    omega

theorem compileChain_weight (hlight : opt.Lightens) :
    {es es' : List Expr} → {scope : Scope} → {before : Option ItemType} →
    (compileChain opt scope before es).Gives es' → weightAll 1 es' ≤ weightAll 1 es
  | [], es', scope, before, h => by
    simp only [compileChain, Logged.gives_pure] at h
    exact h ▸ Nat.le_refl _
  | e :: es, es', scope, before, h => by
    simp only [compileChain, Logged.gives_bind, Logged.gives_pure] at h
    obtain ⟨e', he', rest', hrest', rfl⟩ := h
    have hfirst := Expr.compile_weight hlight he'
    have hrest := compileChain_weight hlight hrest'
    simp only [weightAll]
    omega

theorem compilePredicates_weight (hlight : opt.Lightens) :
    {es es' : List Expr} → {scope : Scope} → (compilePredicates opt scope es).Gives es' →
    weightAll 4 es' ≤ weightAll 4 es
  | [], es', scope, h => by
    simp only [compilePredicates, Logged.gives_pure] at h
    exact h ▸ Nat.le_refl _
  | e :: es, es', scope, h => by
    simp only [compilePredicates, Logged.gives_bind, Logged.gives_pure] at h
    obtain ⟨e', he', rest', hrest', rfl⟩ := h
    have hfirst : e'.weight ≤ e.weight := by
      obtain he' | hone := deferring_weight he'
      · exact Expr.compile_weight hlight he'
      · exact hone ▸ e.weight_pos
    have hrest := compilePredicates_weight hlight hrest'
    simp only [weightAll]
    omega

end

end

/-- Neither compilation nor simplification leaves more than there was, however far the rules may
come back to them. -/
theorem optimizerWithin_lightens : (depth : Nat) → (optimizerWithin depth).Lightens
  | 0 => ⟨fun h => absurd h Logged.gives_fail, fun h => absurd h Logged.gives_fail⟩
  | depth + 1 =>
    ⟨fun h => Expr.compile_weight (optimizerWithin_lightens depth) h,
      fun h => simplify_weight (optimizerWithin_lightens depth) h⟩

end TreeQuery
