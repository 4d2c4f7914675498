import TreeQuery.Proofs.Compile.Cases
import TreeQuery.Proofs.Eval.Asked
/-!
# What is compiled without a focus needs none

Where there is no focus, compilation fails for everything that looks at the item in focus or at its
place, paths without a root aside: `Expr.compile_unfocused`. The rules do not bring such a thing
into that place from elsewhere. Those for the truth of a filter move an operand out of the brackets,
but only one that depends on neither the item nor its position.
-/

namespace TreeQuery

def Optimizer.KeepsUnfocused (opt : Optimizer) : Prop :=
  ∀ {mode : TruthMode} {scope : Scope} {e e' : Expr}, e.Unfocused →
    (opt.simplify mode scope e).Gives e' → e'.Unfocused

@[simp] theorem Expr.unfocused_literal {values : List Atomic} :
    (Expr.literal values).Unfocused := by simp [Expr.literal]

@[simp] theorem Expr.unfocused_empty : Expr.empty.Unfocused := Expr.unfocused_literal

@[simp] theorem Expr.unfocused_ofBool {b : Bool} : (Expr.ofBool b).Unfocused :=
  Expr.unfocused_literal

@[simp] theorem Form.unfocused_joined {isAnd : Bool} {es : List Expr} :
    (Form.joined isAnd es).Unfocused ↔ ∀ e ∈ es, e.Unfocused := by
  cases isAnd <;> simp [joined]

section Rules

variable {opt : Optimizer} (hopt : opt.KeepsUnfocused) {scope : Scope} {e e' : Expr}
    {l : Option Location}

/-! ### Calls of built-in functions -/

theorem foldCall_unfocused {f : Builtin} {arg new : Expr} (h : foldCall f arg = .ok (some new))
    (harg : arg.Unfocused) : new.Unfocused := by
  obtain ⟨-, rfl⟩ | ⟨-, v, rfl⟩ | ⟨-, args, ⟨hform, rfl⟩ | ⟨hform, rfl⟩⟩ := foldCall_cases h
  · exact harg
  · exact Expr.unfocused_literal
  all_goals
    have hargs := harg.form
    rw [hform, Form.unfocused_call] at hargs
    simpa [Expr.call] using hargs.2

include hopt

theorem optimizeCall_unfocused {f : Builtin} {args : List Expr}
    (h : (optimizeCall opt scope f args l).Gives e) (hf : f ≠ .position ∧ f ≠ .last)
    (hargs : ∀ e ∈ args, e.Unfocused) : e.Unfocused := by
  obtain ⟨args', hargs', h⟩ := optimizeCall_cases h
  have hargs : ∀ e ∈ args', e.Unfocused := by
    obtain rfl | ⟨-, arg, arg', rfl, rfl, hsimple⟩ := hargs'
    · exact hargs
    · rw [List.forall_mem_singleton] at hargs ⊢
      exact hopt hargs hsimple
  obtain ⟨rfl, -⟩ | ⟨arg', new, place, rfl, hfold, rfl⟩ := h
  · simpa [hf] using hargs
  · exact Expr.unfocused_at?.mpr (foldCall_unfocused hfold (List.forall_mem_singleton.mp hargs))

/-! ### Conjunctions, disjunctions and conditionals -/

theorem flattenOperands_unfocused {isAnd : Bool} :
    {es es' : List Expr} → (flattenOperands opt scope isAnd es).Gives es' →
    (∀ e ∈ es, e.Unfocused) → ∀ e ∈ es', e.Unfocused
  | [], _, h, _ => by
    obtain rfl := Logged.gives_pure.mp h
    simp
  | e :: es, es', h, hes => by
    rw [List.forall_mem_cons] at hes
    obtain ⟨e', rest, he', hrest, h⟩ := flattenOperands_cons h
    have hfirst := hopt hes.1 he'
    have hrest := flattenOperands_unfocused hrest hes.2
    obtain rfl | ⟨inner, hform, rfl⟩ := h
    · exact List.forall_mem_cons.mpr ⟨hfirst, hrest⟩
    · have hinner := hfirst.form
      rw [hform, Form.unfocused_joined] at hinner
      exact List.forall_mem_append.mpr ⟨hinner, hrest⟩

theorem optimizeLogic_unfocused {isAnd : Bool} {es : List Expr}
    (h : (optimizeLogic opt scope isAnd es l).Gives e) (hes : ∀ e ∈ es, e.Unfocused) :
    e.Unfocused := by
  obtain ⟨flat, hflat, h⟩ := optimizeLogic_cases h
  have hflat := flattenOperands_unfocused hopt hflat hes
  have left {kept : List Expr} (hkept : (dropConstants isAnd flat).Gives (some kept)) :
      ∀ e ∈ kept, e.Unfocused :=
    fun e he => hflat e ((dropConstants_sublist hkept).subset he)
  obtain rfl | ⟨-, rfl⟩ | ⟨-, rfl⟩ | ⟨operand, hkept, h⟩ | ⟨kept, hkept, rfl⟩ := h
  · simpa using hflat
  · simp
  · simp
  · exact optimizeCall_unfocused hopt h (by decide) (left hkept)
  · simpa using left hkept

theorem optimizeConditional_unfocused {condition yes no : Expr}
    (h : (optimizeConditional opt scope condition yes no l).Gives e)
    (hcondition : condition.Unfocused) (hyes : yes.Unfocused) (hno : no.Unfocused) :
    e.Unfocused := by
  obtain ⟨condition', hsimple, ⟨b, -, rfl⟩ | rfl⟩ := optimizeConditional_cases h
  · cases b with
    | true => exact hyes
    | false => exact hno
  · simp [hopt hcondition hsimple, hyes, hno]

omit hopt

/-! ### Comparisons and searches -/

theorem optimizeComparison_unfocused {style : CompareStyle} {op : CompareOp} {left right : Expr}
    (h : (optimizeComparison scope style op left right l).Gives e) (hleft : left.Unfocused)
    (hright : right.Unfocused) : e.Unfocused := by
  obtain rfl | rfl | ⟨vs, ws, folded, place, -, -, hfolded, rfl⟩ | ⟨-, -, rfl⟩ :=
    optimizeComparison_cases h
  · simp [hleft, hright]
  · simp [hleft, hright]
  · obtain ⟨b, rfl, -⟩ | ⟨-, -, rfl⟩ := foldComparison_cases hfolded <;> simp
  · simp

theorem optimizeSearch_unfocused {input query : Expr}
    (h : (optimizeSearch scope input query l).Gives e) (hinput : input.Unfocused)
    (hquery : query.Unfocused) : e.Unfocused := by
  obtain rfl | ⟨-, rfl⟩ := optimizeSearch_cases h
  · simp [hinput, hquery]
  · simp

/-! ### Paths, maps and filters -/

theorem optimizePath_unfocused {root : Expr} {steps : List Expr}
    (h : (optimizePath scope (some root) steps l).Gives e) (hroot : root.Unfocused) :
    e.Unfocused := by
  obtain ⟨-, rfl⟩ | ⟨-, rfl⟩ | ⟨-, place, rfl⟩ := optimizePath_some_cases h
  · exact Expr.unfocused_at?.mpr hroot
  · simpa using hroot
  · simp

theorem dropContextItems_unfocused {operands kept : List Expr}
    (h : (dropContextItems operands).Gives kept) (hoperands : ∀ e ∈ operands.head?, e.Unfocused) :
    kept = operands := by
  cases operands with
  | nil => exact (Logged.gives_pure.mp h).symm
  | cons first rest =>
    cases rest with
    | nil => exact (Logged.gives_pure.mp h).symm
    | cons second rest =>
      obtain ⟨hfirst, -⟩ | rfl := dropContextItems_cons h
      · obtain ⟨form, τ, place⟩ := first
        cases form <;> simp [Expr.isContextItem] at hfirst
        simp at hoperands
      · rfl

theorem optimizeMap_unfocused {operands : List Expr} (h : (optimizeMap scope operands l).Gives e)
    (hoperands : ∀ e ∈ operands.head?, e.Unfocused) : e.Unfocused := by
  obtain ⟨kept, hkept, hcases⟩ := optimizeMap_cases h
  obtain rfl : kept = operands := by
    obtain rfl | ⟨-, hdrop⟩ := hkept
    · rfl
    · exact dropContextItems_unfocused hdrop hoperands
  obtain ⟨operand, rfl, rfl⟩ | ⟨-, rfl⟩ | ⟨-, place, rfl⟩ := hcases
  · exact Expr.unfocused_at?.mpr (hoperands operand rfl)
  · simpa using hoperands
  · simp

theorem optimizeFilter_unfocused {root : Expr} {es : List Expr}
    (h : (optimizeFilter opt scope root es l).Gives e) (hroot : root.Unfocused) : e.Unfocused := by
  obtain ⟨filtered, -, ⟨t, -, ⟨-, rfl⟩ | rfl⟩ | ⟨-, place, rfl⟩⟩ := optimizeFilter_cases h
  · exact hroot
  · simpa using hroot
  · simp

/-! ### Type checks and calls -/

include hopt in
theorem Expr.checkAs_unfocused {target : SeqType} {promote : Bool} :
    {e e' : Expr} → {l : Option Location} →
    (e.checkAs opt scope target promote l).Gives e' → e.Unfocused → e'.Unfocused
  | ⟨form, τ, place⟩, e', l, h, he => by
    replace h := Expr.checkAs_cases h
    obtain rfl | ⟨-, rfl⟩ | ⟨f, -, h⟩ | ⟨values, -, h⟩ |
      ⟨condition, yes, no, yes', no', hform, hyes, hno, h⟩ := h
    · simpa [runtimeCheck] using he
    · exact he
    · obtain ⟨s, g, -, -, -, -, rfl⟩ := checkFunction_cases h
      simp
    · obtain ⟨values', place', -, rfl⟩ := checkLiteral_cases h
      simp
    · subst hform
      simp only [unfocused_mk, Form.unfocused_conditional] at he
      have hyes := Expr.checkAs_unfocused hyes he.2.1
      have hno := Expr.checkAs_unfocused hno he.2.2
      exact optimizeConditional_unfocused hopt h he.1 hyes hno

theorem dropRedundantChecks_unfocused {args args' : List Expr} {vs : List Variable}
    (h : (dropRedundantChecks args vs).Gives args') (hargs : ∀ e ∈ args, e.Unfocused) :
    ∀ e ∈ args', e.Unfocused := by
  intro arg harg
  obtain hmem | ⟨target, promote, τ, place, hmem⟩ := dropRedundantChecks_mem h arg harg
  · exact hargs arg hmem
  · simpa using hargs _ hmem

theorem optimizeApply_unfocused {f : Expr} {args : List Expr}
    (h : (optimizeApply scope f args l).Gives e) (hf : f.Unfocused)
    (hargs : ∀ e ∈ args, e.Unfocused) : e.Unfocused := by
  obtain ⟨signature, args', -, hargs', rfl⟩ := optimizeApply_cases h
  have hargs : ∀ e ∈ args', e.Unfocused := by
    obtain rfl | ⟨vs, hdrop⟩ := hargs'
    · exact hargs
    · exact dropRedundantChecks_unfocused hdrop hargs
  simpa using ⟨hf, hargs⟩

/-! ### The truth of a filter -/

section Truth

variable {root : Expr} {es : List Expr} (hroot : root.Unfocused)

include hroot

theorem remainingRoot_unfocused (h : (remainingRoot opt scope root es).Gives e) : e.Unfocused := by
  obtain ⟨-, rfl⟩ | ⟨-, h⟩ := remainingRoot_cases h
  · exact hroot
  · exact optimizeFilter_unfocused h hroot

theorem extendRoot_unfocused (h : (extendRoot opt scope root es e).Gives (some e')) :
    e'.Unfocused := by
  obtain ⟨head, hhead, ⟨-, rfl⟩ | ⟨steps, -, hpath⟩⟩ := extendRoot_cases h
  · exact remainingRoot_unfocused hroot hhead
  · exact optimizePath_unfocused hpath (remainingRoot_unfocused hroot hhead)

theorem liftPredicate_unfocused (h : (liftPredicate opt scope root es e).Gives (some e')) :
    e'.Unfocused := by
  obtain hpath | ⟨-, head, hhead, hmap⟩ := liftPredicate_cases h
  · exact extendRoot_unfocused hroot hpath
  · exact optimizeMap_unfocused hmap (by simpa using remainingRoot_unfocused hroot hhead)

theorem simplifyFilter_unfocused (h : (simplifyFilter opt scope root es).Gives (some e)) :
    e.Unfocused := by
  obtain ⟨⟨form, τ, place⟩, hlast, -, hpositional, h⟩ := simplifyFilter_cases h
  -- an operand that leaves the predicate depends on neither the context item nor its position
  have hposition : form.dependsOn .position = false := by
    have hlast := List.any_eq_false.mp hpositional _ (List.mem_of_getLast? hlast)
    simp only [Expr.isPositional, Expr.dependsOn, Bool.or_eq_true, not_or,
      Bool.not_eq_true] at hlast
    exact hlast.2
  obtain h | ⟨op, left, right, lifted, hform, hcontext, hleft, h⟩ |
    ⟨input, query, lifted, hform, hcontext, hinput, h⟩ := h
  · exact liftPredicate_unfocused hroot h
  · subst hform
    rw [Form.dependsOn, Bool.or_eq_false_iff] at hposition
    have hright := Expr.unfocused_of_independent hcontext hposition.2
    exact optimizeComparison_unfocused h (extendRoot_unfocused hroot hleft) hright
  · subst hform
    rw [Form.dependsOn, Bool.or_eq_false_iff] at hposition
    have hquery := Expr.unfocused_of_independent hcontext hposition.2
    exact optimizeSearch_unfocused h (extendRoot_unfocused hroot hinput) hquery

end Truth

/-! ### Simplification -/

include hopt

theorem simplerTruth_unfocused {mode : TruthMode}
    (h : (simplerTruth opt mode scope e).Gives (some e')) (he : e.Unfocused) : e'.Unfocused := by
  have hargs {f : Builtin} {arg : Expr} (hform : e.form = .call f [arg]) :
      ∀ e ∈ [arg], e.Unfocused := by
    have hcall := he.form
    rw [hform, Form.unfocused_call] at hcall
    exact hcall.2
  obtain ⟨hform, -⟩ | ⟨hform | ⟨-, hform⟩, -⟩ | ⟨-, arg, hform, hcall⟩ | ⟨root, es, hform, h⟩ :=
    simplerTruth_cases h
  · exact List.forall_mem_singleton.mp (hargs hform)
  · exact List.forall_mem_singleton.mp (hargs hform)
  · exact List.forall_mem_singleton.mp (hargs hform)
  · exact optimizeCall_unfocused hopt hcall (by decide) (hargs hform)
  · have hroot := he.form
    rw [hform, Form.unfocused_filter] at hroot
    exact simplifyFilter_unfocused hroot h

theorem simplify_unfocused {mode : TruthMode} (h : (simplify opt mode scope e).Gives e')
    (he : e.Unfocused) : e'.Unfocused := by
  obtain rfl | ⟨new, place, hnew, h⟩ := simplify_cases h
  · exact he
  · exact hopt (Expr.unfocused_at?.mpr (simplerTruth_unfocused hopt hnew he)) h

end Rules

/-- The truth of an expression that needs no focus is found without one, to any depth. -/
theorem optimizerWithin_keepsUnfocused : (d : Nat) → (optimizerWithin d).KeepsUnfocused
  | 0 => fun _ h => absurd h Logged.gives_fail
  | d + 1 => fun he h => simplify_unfocused (optimizerWithin_keepsUnfocused d) h he

/-! ### Compilation -/

section Compile

variable {opt : Optimizer} {scope : Scope}

mutual

theorem Expr.compile_unfocused (hopt : opt.KeepsUnfocused) (hscope : scope.focus = none) :
    (e : Expr) → {e' : Expr} → e.asks .root = false → (e.compile opt scope).Gives e' → e'.Unfocused
  | ⟨form, τ, l⟩, e', hasks, h => by
    rw [Expr.asks] at hasks
    rw [Expr.compile] at h
    exact Form.compile_unfocused hopt hscope form hasks h

theorem Form.compile_unfocused (hopt : opt.KeepsUnfocused) (hscope : scope.focus = none) :
    (form : Form) → {τ : StaticType} → {l : Option Location} → {e' : Expr} →
    form.asks .root = false → (form.compile opt scope τ l).Gives e' → e'.Unfocused
  | .literal _, τ, l, e', hasks, h | .position _, τ, l, e', hasks, h | .failure _, τ, l, e', hasks, h => by
    obtain rfl := Logged.gives_pure.mp h
    simp
  | .contextItem, τ, l, e', hasks, h => by
    simp [Form.compile, hscope] at h
  | .function f, τ, l, e', hasks, h => by
    simp only [Form.compile, Logged.gives_bind, Logged.gives_pure] at h
    obtain ⟨g, -, rfl⟩ := h
    simp
  | .conjunction es, τ, l, e', hasks, h | .disjunction es, τ, l, e', hasks, h => by
    simp only [Form.compile, Logged.gives_bind] at h
    obtain ⟨es', hes', h⟩ := h
    rw [Form.asks] at hasks
    exact optimizeLogic_unfocused hopt h (compileAll_unfocused hopt hscope es hasks hes')
  | .comparison style op left right, τ, l, e', hasks, h => by
    simp only [Form.compile, Logged.gives_bind] at h
    obtain ⟨left', hleft', right', hright', h⟩ := h
    rw [Form.asks, Bool.or_eq_false_iff] at hasks
    exact optimizeComparison_unfocused h (Expr.compile_unfocused hopt hscope left hasks.1 hleft')
      (Expr.compile_unfocused hopt hscope right hasks.2 hright')
  | .call f args, τ, l, e', hasks, h => by
    simp only [Form.compile, requireFocus, hscope, Logged.gives_bind, Logged.gives_ite,
      Logged.gives_locate, Logged.gives_failWith, and_false, false_or] at h
    obtain ⟨-, ⟨hf, -⟩, args', hargs', h⟩ := h
    rw [Form.asks, Bool.or_eq_false_iff] at hasks
    exact optimizeCall_unfocused hopt h (by simpa using hf)
      (compileAll_unfocused hopt hscope args hasks.2 hargs')
  | .step axis test es, τ, l, e', hasks, h => by
    simp [Form.compile, requireNode, hscope] at h
  | .path root steps, τ, l, e', hasks, h => by
    simp only [Form.compile, Logged.gives_bind] at h
    obtain ⟨root', hroot', steps', -, h⟩ := h
    rw [Form.asks] at hasks
    exact optimizePath_unfocused h (Expr.compile_unfocused hopt hscope root hasks hroot')
  | .relativePath steps, τ, l, e', hasks, h => by simp [Form.asks] at hasks
  | .map operands, τ, l, e', hasks, h => by
    simp only [Form.compile, Logged.gives_bind] at h
    obtain ⟨operands', hoperands', h⟩ := h
    exact optimizeMap_unfocused h (compileChain_unfocused hopt hscope operands hasks hoperands')
  | .filter root es, τ, l, e', hasks, h => by
    simp only [Form.compile, Logged.gives_bind] at h
    obtain ⟨root', hroot', es', -, h⟩ := h
    rw [Form.asks] at hasks
    exact optimizeFilter_unfocused h (Expr.compile_unfocused hopt hscope root hasks hroot')
  | .containsText input query, τ, l, e', hasks, h => by
    simp only [Form.compile, Logged.gives_bind] at h
    obtain ⟨input', hinput', query', hquery', h⟩ := h
    rw [Form.asks, Bool.or_eq_false_iff] at hasks
    exact optimizeSearch_unfocused h (Expr.compile_unfocused hopt hscope input hasks.1 hinput')
      (Expr.compile_unfocused hopt hscope query hasks.2 hquery')
  | .conditional condition yes no, τ, l, e', hasks, h => by
    simp only [Form.compile, Logged.gives_bind] at h
    obtain ⟨condition', hcondition', yes', hyes', no', hno', h⟩ := h
    rw [Form.asks, Bool.or_eq_false_iff, Bool.or_eq_false_iff] at hasks
    exact optimizeConditional_unfocused hopt h
      (Expr.compile_unfocused hopt hscope condition hasks.1.1 hcondition')
      (Expr.compile_unfocused hopt hscope yes hasks.1.2 hyes')
      (Expr.compile_unfocused hopt hscope no hasks.2 hno')
  | .reference v, τ, l, e', hasks, h => by
    rw [Form.compile] at h
    split at h
    · obtain rfl := Logged.gives_pure.mp h
      simp
    · simp at h
  | .apply f args, τ, l, e', hasks, h => by
    simp only [Form.compile, Logged.gives_bind] at h
    obtain ⟨f', hf', args', hargs', h⟩ := h
    rw [Form.asks, Bool.or_eq_false_iff] at hasks
    exact optimizeApply_unfocused h (Expr.compile_unfocused hopt hscope f hasks.1 hf')
      (compileAll_unfocused hopt hscope args hasks.2 hargs')
  | .check operand target promote, τ, l, e', hasks, h => by
    simp only [Form.compile, Logged.gives_bind] at h
    obtain ⟨operand', hoperand', h⟩ := h
    rw [Form.asks] at hasks
    exact Expr.checkAs_unfocused hopt h (Expr.compile_unfocused hopt hscope operand hasks hoperand')

theorem compileAll_unfocused (hopt : opt.KeepsUnfocused) (hscope : scope.focus = none) :
    (es : List Expr) → {es' : List Expr} → anyAsks .root es = false →
    (compileAll opt scope es).Gives es' → ∀ e ∈ es', e.Unfocused
  | [], es', _, h => by
    obtain rfl := Logged.gives_pure.mp h
    simp
  | e :: es, es', hasks, h => by
    simp only [compileAll, Logged.gives_bind, Logged.gives_pure] at h
    obtain ⟨e', he', rest, hrest, rfl⟩ := h
    rw [anyAsks, Bool.or_eq_false_iff] at hasks
    exact List.forall_mem_cons.mpr ⟨Expr.compile_unfocused hopt hscope e hasks.1 he',
      compileAll_unfocused hopt hscope es hasks.2 hrest⟩

theorem compileChain_unfocused (hopt : opt.KeepsUnfocused) (hscope : scope.focus = none) :
    (es : List Expr) → {es' : List Expr} → (Form.map es).asks .root = false →
    (compileChain opt scope none es).Gives es' → ∀ e ∈ es'.head?, e.Unfocused
  | [], es', _, h => by
    obtain rfl := Logged.gives_pure.mp h
    simp
  | e :: es, es', hasks, h => by
    simp only [compileChain, Logged.gives_bind, Logged.gives_pure] at h
    obtain ⟨e', he', rest, -, rfl⟩ := h
    rw [Form.asks] at hasks
    simpa using Expr.compile_unfocused hopt hscope e hasks he'

end

end Compile

end TreeQuery
