import TreeQuery.Proofs.Typing.Filters
/-!
# Compilation annotates

`Expr.compile_annotated`: what is compiled with a sound optimizer is annotated for the scope it was
compiled in. The optimizer that comes back to compilation is sound to every depth
(`optimizerWithin_sound`).
-/

namespace TreeQuery

variable {opt : Optimizer} {scope : Scope}

theorem simplerTruth_annotated (hopt : opt.Sound) {mode : TruthMode} {e new : Expr} {K : Knowledge}
    (h : (simplerTruth opt mode scope e).Gives (some new)) (he : e.Annotated scope.visible K) :
    new.Annotated scope.visible K := by
  obtain ⟨form, τ, l⟩ := e
  rw [Expr.Annotated] at he
  have onlyArg {f : Builtin} {arg : Expr} (hform : form = .call f [arg]) :
      AnnotatedAll scope.visible K [arg] := by
    subst hform
    simpa only [Form.Annotated] using he.2
  have single {e : Expr} (h : AnnotatedAll scope.visible K [e]) : e.Annotated scope.visible K :=
    annotatedAll_iff.mp h e (List.mem_singleton_self e)
  obtain ⟨hform, -⟩ | ⟨hform | ⟨-, hform⟩, -⟩ | ⟨-, arg, hform, hcall⟩ |
      ⟨root, predicates, hform, h⟩ :=
    simplerTruth_cases h
  · exact single (onlyArg hform)
  · exact single (onlyArg hform)
  · exact single (onlyArg hform)
  · exact optimizeCall_annotated hopt hcall (onlyArg hform)
  · obtain rfl : form = .filter root predicates := hform
    simp only [Form.Annotated] at he
    exact simplifyFilter_annotated hopt h he.2.1 he.2.2

theorem simplify_annotated (hopt : opt.Sound) {mode : TruthMode} {e e' : Expr} {K : Knowledge}
    (h : (simplify opt mode scope e).Gives e') (he : e.Annotated scope.visible K) :
    e'.Annotated scope.visible K := by
  obtain rfl | ⟨new, place, hnew, h⟩ := simplify_cases h
  · exact he
  · exact hopt.simplify (Expr.annotated_at?.mpr (simplerTruth_annotated hopt hnew he)) h

section

variable {allowed : FunctionItem → Prop}

mutual

theorem Expr.compile_annotated (hopt : opt.Sound) (hallowed : ∀ f, allowed f → f.Good) :
    {e e' : Expr} → {scope : Scope} →
    e.Built allowed → (e.compile opt scope).Gives e' → e'.Annotated scope.visible scope.known
  | ⟨form, τ, l⟩, e', scope, he, h => by
    rw [Expr.Built] at he
    rw [Expr.compile] at h
    exact Form.compile_annotated hopt hallowed he h

theorem Form.compile_annotated (hopt : opt.Sound) (hallowed : ∀ f, allowed f → f.Good) :
    {form : Form} → {e' : Expr} →
    {scope : Scope} → {τ : StaticType} → {l : Option Location} → form.Built allowed τ →
    (form.compile opt scope τ l).Gives e' → e'.Annotated scope.visible scope.known
  | .literal _, e', scope, τ, l, hform, h | .position _, e', scope, τ, l, hform, h => by
    simp only [Form.compile, Logged.gives_pure] at h
    subst h
    simp only [Form.Built] at hform
    simp only [Expr.Annotated, Form.Annotated, Form.Infers]
    exact ⟨hform, trivial⟩
  | .failure _, e', scope, τ, l, _, h => by
    simp only [Form.compile, Logged.gives_pure] at h
    exact h ▸ Expr.annotated_failure
  | .contextItem, e', scope, τ, l, _, h => by
    rw [Form.compile] at h
    split at h
    · next t hfocus =>
      obtain rfl := Logged.gives_pure.mp h
      simp only [Expr.Annotated, Form.Annotated, Form.Infers]
      exact ⟨.inr ⟨t, .of_mem hfocus, rfl⟩, trivial⟩
    · simp at h
  | .function f, e', scope, τ, l, hform, h => by
    simp only [Form.compile, Logged.gives_bind, Logged.gives_pure] at h
    obtain ⟨f', hf', rfl⟩ := h
    rw [Form.Built] at hform
    exact Expr.annotated_at?.mpr
      (annotated_function (FunctionItem.compile_good hopt hallowed hform hf'))
  | .conjunction _, e', scope, τ, l, hform, h | .disjunction _, e', scope, τ, l, hform, h => by
    simp only [Form.compile, Logged.gives_bind] at h
    obtain ⟨operands', hoperands', h⟩ := h
    rw [Form.Built] at hform
    exact optimizeLogic_annotated hopt h (compileAll_annotated hopt hallowed hform hoperands')
  | .comparison .., e', scope, τ, l, hform, h => by
    simp only [Form.compile, Logged.gives_bind] at h
    obtain ⟨left', hleft', right', hright', h⟩ := h
    rw [Form.Built] at hform
    exact optimizeComparison_annotated h (Expr.compile_annotated hopt hallowed hform.1 hleft')
      (Expr.compile_annotated hopt hallowed hform.2 hright')
  | .call .., e', scope, τ, l, hform, h => by
    simp only [Form.compile, Logged.gives_bind] at h
    obtain ⟨-, -, args', hargs', h⟩ := h
    rw [Form.Built] at hform
    exact optimizeCall_annotated hopt h (compileAll_annotated hopt hallowed hform hargs')
  | .step axis test _, e', scope, τ, l, hform, h => by
    simp only [Form.compile, Logged.gives_bind] at h
    obtain ⟨-, -, predicates', hpredicates', h⟩ := h
    rw [Form.Built] at hform
    refine optimizeStep_annotated hopt h ?_
    have hpredicates := compilePredicates_annotated hopt hallowed hform hpredicates'
    refine hpredicates.refine fun t ht => ?_
    obtain rfl : (stepType axis test).item = t := Option.some.inj ht
    exact .of_mem (Host.stepOffers_stepType axis test)
  | .path .., e', scope, τ, l, hform, h => by
    simp only [Form.compile, Logged.gives_bind] at h
    obtain ⟨root', hroot', steps', hsteps', h⟩ := h
    rw [Form.Built] at hform
    have hroot := Expr.compile_annotated hopt hallowed hform.1 hroot'
    refine optimizePath_some_annotated h hroot
      (compileChain_annotated hopt hallowed hform.2 hsteps' ?_)
    rintro t ht
    exact .of_mem (Option.some.inj ht ▸ hroot.offers)
  | .relativePath _, e', scope, τ, l, hform, h => by
    simp only [Form.compile, Logged.gives_bind] at h
    obtain ⟨steps', hsteps', h⟩ := h
    rw [Form.Built] at hform
    exact optimizePath_none_annotated h
      (compileChain_annotated hopt hallowed hform hsteps' (.refl _))
  | .map _, e', scope, τ, l, hform, h => by
    simp only [Form.compile, Logged.gives_bind] at h
    obtain ⟨operands', hoperands', h⟩ := h
    rw [Form.Built] at hform
    exact optimizeMap_annotated h (compileChain_annotated hopt hallowed hform hoperands' (.refl _))
  | .filter .., e', scope, τ, l, hform, h => by
    simp only [Form.compile, Logged.gives_bind] at h
    obtain ⟨root', hroot', predicates', hpredicates', h⟩ := h
    rw [Form.Built] at hform
    have hroot := Expr.compile_annotated hopt hallowed hform.1 hroot'
    refine (optimizeFilter_annotated hopt h hroot ?_).1
    have hpredicates := compilePredicates_annotated hopt hallowed hform.2 hpredicates'
    refine hpredicates.refine fun t ht => ?_
    obtain rfl : root'.type.item = t := Option.some.inj ht
    exact .of_mem hroot.offers
  | .containsText .., e', scope, τ, l, hform, h => by
    simp only [Form.compile, Logged.gives_bind] at h
    obtain ⟨input', hinput', query', hquery', h⟩ := h
    rw [Form.Built] at hform
    exact optimizeSearch_annotated h (Expr.compile_annotated hopt hallowed hform.1 hinput')
      (Expr.compile_annotated hopt hallowed hform.2 hquery')
  | .conditional .., e', scope, τ, l, hform, h => by
    simp only [Form.compile, Logged.gives_bind] at h
    obtain ⟨condition', hcondition', yes', hyes', no', hno', h⟩ := h
    rw [Form.Built] at hform
    exact optimizeConditional_annotated hopt h
      (Expr.compile_annotated hopt hallowed hform.1 hcondition')
      (Expr.compile_annotated hopt hallowed hform.2.1 hyes')
      (Expr.compile_annotated hopt hallowed hform.2.2 hno')
  | .reference v, e', scope, τ, l, _, h => by
    rw [Form.compile] at h
    split at h
    · next found hfound =>
      obtain rfl := Logged.gives_pure.mp h
      have hname : found.name = v.name := by simpa using List.find?_some hfound
      refine Expr.annotated_at?.mpr ?_
      simp only [Expr.of, Form.type, Expr.Annotated, Form.Annotated, Form.Infers, hname]
      exact ⟨trivial, hfound⟩
    · simp at h
  | .apply .., e', scope, τ, l, hform, h => by
    simp only [Form.compile, Logged.gives_bind] at h
    obtain ⟨f', hf', args', hargs', h⟩ := h
    rw [Form.Built] at hform
    exact optimizeApply_annotated h (Expr.compile_annotated hopt hallowed hform.1 hf')
      (compileAll_annotated hopt hallowed hform.2 hargs')
  | .check .., e', scope, τ, l, hform, h => by
    simp only [Form.compile, Logged.gives_bind] at h
    obtain ⟨operand', hoperand', h⟩ := h
    rw [Form.Built] at hform
    exact (Expr.checkAs_annotated hopt h (Expr.compile_annotated hopt hallowed hform hoperand')).1

theorem FunctionItem.compile_good (hopt : opt.Sound) (hallowed : ∀ f, allowed f → f.Good) :
    {f f' : FunctionItem} →
    {scope : Scope} → f.Built allowed → (f.compile opt scope).Gives f' → f'.Good
  | .inline name signature params body, f', scope, hf, h => by
    simp only [FunctionItem.compile, Logged.gives_bind, Logged.gives_pure] at h
    obtain ⟨body₁, hbody₁, body₂, hbody₂, rfl⟩ := h
    rw [FunctionItem.Built] at hf
    obtain ⟨hannotated, hmeets⟩ :=
      Expr.checkAs_annotated hopt hbody₂ (Expr.compile_annotated hopt hallowed hf.2 hbody₁)
    rw [FunctionItem.Good]
    exact ⟨hf.1, ⟨scope.visible, hannotated.mono (by rintro t ht; cases ht)⟩, hmeets⟩
  | .coerced .., f', scope, hf, h => by
    simp only [FunctionItem.compile, Logged.gives_pure] at h
    rw [FunctionItem.Built] at hf
    exact h ▸ hallowed _ hf

theorem compileAll_annotated (hopt : opt.Sound) (hallowed : ∀ f, allowed f → f.Good) :
    {es es' : List Expr} →
    {scope : Scope} → BuiltAll allowed es → (compileAll opt scope es).Gives es' →
    AnnotatedAll scope.visible scope.known es'
  | [], es', scope, _, h => by
    simp only [compileAll, Logged.gives_pure] at h
    exact h ▸ trivial
  | e :: es, es', scope, hes, h => by
    simp only [compileAll, Logged.gives_bind, Logged.gives_pure] at h
    obtain ⟨e', he', rest', hrest', rfl⟩ := h
    rw [BuiltAll] at hes
    rw [AnnotatedAll]
    exact ⟨Expr.compile_annotated hopt hallowed hes.1 he',
      compileAll_annotated hopt hallowed hes.2 hrest'⟩

/-- A chain is annotated behind whatever offers the type that is put into focus for its first
operand. -/
theorem compileChain_annotated (hopt : opt.Sound) (hallowed : ∀ f, allowed f → f.Good) :
    {es es' : List Expr} →
    {scope : Scope} → {before : Option ItemType} → {K : Knowledge} → BuiltAll allowed es →
    (compileChain opt scope before es).Gives es' → K.Refines (match before with
      | some t => fun u => some t = some u
      | none => scope.known) → AnnotatedChain scope.visible K es'
  | [], es', scope, before, K, _, h, _ => by
    simp only [compileChain, Logged.gives_pure] at h
    exact h ▸ trivial
  | e :: es, es', scope, before, K, hes, h, hK => by
    simp only [compileChain, Logged.gives_bind, Logged.gives_pure] at h
    obtain ⟨e', he', rest', hrest', rfl⟩ := h
    rw [BuiltAll] at hes
    have hfirst : e'.Annotated scope.visible K := by
      cases before with
      | none => exact (Expr.compile_annotated hopt hallowed hes.1 he').mono hK
      | some t =>
        have hscope : e'.Annotated scope.visible (scope.withFocus (some t)).known :=
          Expr.compile_annotated hopt hallowed hes.1 he'
        exact hscope.mono hK
    rw [AnnotatedChain]
    refine ⟨hfirst, compileChain_annotated hopt hallowed hes.2 hrest' ?_⟩
    rintro u hu
    exact .of_mem (Option.some.inj hu ▸ hfirst.offers)

theorem compilePredicates_annotated (hopt : opt.Sound) (hallowed : ∀ f, allowed f → f.Good) :
    {es es' : List Expr} →
    {scope : Scope} → BuiltAll allowed es → (compilePredicates opt scope es).Gives es' →
    AnnotatedAll scope.visible scope.known es'
  | [], es', scope, _, h => by
    simp only [compilePredicates, Logged.gives_pure] at h
    exact h ▸ trivial
  | e :: es, es', scope, hes, h => by
    simp only [compilePredicates, Logged.gives_bind, Logged.gives_pure] at h
    obtain ⟨e', he', rest', hrest', rfl⟩ := h
    rw [BuiltAll] at hes
    rw [AnnotatedAll]
    exact ⟨deferring_annotated he' (Expr.compile_annotated hopt hallowed hes.1),
      compilePredicates_annotated hopt hallowed hes.2 hrest'⟩

end

end

theorem optimizerWithin_sound : (depth : Nat) → (optimizerWithin depth).Sound
  | 0 => ⟨fun _ h => absurd h Logged.gives_fail, fun _ h => absurd h Logged.gives_fail⟩
  | depth + 1 =>
    ⟨fun he h => Expr.compile_annotated (optimizerWithin_sound depth) (fun _ => id) he h,
      fun he h => simplify_annotated (optimizerWithin_sound depth) h he⟩

end TreeQuery
