import TreeQuery.Proofs.Typing.Annotation
import TreeQuery.Proofs.Typing.Built
/-!
# The rules for truth values and comparisons keep annotations right

Rules that come back to compilation and simplification are looked at for a sound optimizer, one
whose answers are annotated.
-/

namespace TreeQuery

/-- What is known of the item in focus where an expression is compiled. -/
def Scope.known (s : Scope) : Knowledge := fun t => s.focus = some t

/-- Whether an optimizer gives annotated expressions: in the scope it compiles in, or in the focus
it simplifies for. -/
structure Optimizer.Sound (opt : Optimizer) : Prop where
  compile : ∀ {scope : Scope} {e e' : Expr}, e.Built FunctionItem.Good →
    (opt.compile scope e).Gives e' →
    e'.Annotated scope.visible scope.known
  simplify : ∀ {mode : TruthMode} {scope : Scope} {e e' : Expr} {K : Knowledge}, e.Annotated
    scope.visible K →
    (opt.simplify mode scope e).Gives e' → e'.Annotated scope.visible K

variable {Γ : List Variable} {K : Knowledge}

/-! ### Calls -/

theorem annotated_call {f : Builtin} {args : List Expr} {l : Option Location}
    (h : AnnotatedAll Γ K args) : (⟨.call f args, f.resultType args, l⟩ : Expr).Annotated Γ K := by
  simp only [Expr.Annotated, Form.Annotated]
  refine ⟨?_, h⟩
  cases f <;> cases args <;> simp only [Form.Infers, Builtin.resultType]
  case trace.cons arg args =>
    simp only [AnnotatedAll] at h
    exact h.1.infers

theorem Expr.annotated_call {f : Builtin} {args : List Expr} (h : AnnotatedAll Γ K args) :
    (call f args).Annotated Γ K :=
  TreeQuery.annotated_call h

theorem foldCall_annotated {f : Builtin} {arg new : Expr} (h : foldCall f arg = .ok (some new))
    (harg : arg.Annotated Γ K) : new.Annotated Γ K := by
  obtain ⟨-, rfl⟩ | ⟨-, v, rfl⟩ | ⟨-, args, ⟨hform, rfl⟩ | ⟨hform, rfl⟩⟩ := foldCall_cases h
  · exact harg
  · exact Expr.annotated_literal Expr.one_le_noEnd
  all_goals
    obtain ⟨form, τ, l⟩ := arg
    subst hform
    simp only [Expr.Annotated, Form.Annotated] at harg
    exact Expr.annotated_call harg.2

section

variable {opt : Optimizer} {scope : Scope} {l : Option Location} {e : Expr}

theorem optimizeCall_annotated (hopt : opt.Sound) {f : Builtin} {args : List Expr}
    (h : (optimizeCall opt scope f args l).Gives e) (hargs : AnnotatedAll scope.visible K args) :
    e.Annotated scope.visible K := by
  obtain ⟨args', hargs', h⟩ := optimizeCall_cases h
  have hargs : AnnotatedAll scope.visible K args' := by
    obtain rfl | ⟨-, arg, arg', rfl, rfl, hsimple⟩ := hargs'
    · exact hargs
    · simp only [AnnotatedAll, and_true] at hargs ⊢
      exact hopt.simplify hargs hsimple
  obtain ⟨rfl, -⟩ | ⟨arg', new, place, rfl, hfold, rfl⟩ := h
  · exact annotated_call hargs
  · simp only [AnnotatedAll, and_true] at hargs
    exact Expr.annotated_at?.mpr (foldCall_annotated hfold hargs)

/-! ### Conjunctions and disjunctions -/

@[simp] theorem Form.annotated_joined {isAnd : Bool} {es : List Expr} :
    (Form.joined isAnd es).Annotated Γ K ↔ AnnotatedAll Γ K es := by
  cases isAnd <;> simp only [joined, Bool.false_eq_true, if_true, if_false, Annotated]

theorem annotated_joined {isAnd : Bool} {es : List Expr} (h : AnnotatedAll Γ K es) :
    (⟨.joined isAnd es, .boolean, l⟩ : Expr).Annotated Γ K := by
  rw [Expr.Annotated, Form.annotated_joined]
  refine ⟨?_, h⟩
  cases isAnd <;> simp only [Form.joined, Bool.false_eq_true, if_true, if_false, Form.Infers]

theorem flattenOperands_annotated (hopt : opt.Sound) {isAnd : Bool} : {es es' : List Expr} →
    (flattenOperands opt scope isAnd es).Gives es' → AnnotatedAll scope.visible K es →
    AnnotatedAll scope.visible K es'
  | [], es', h, _ => by
    simp only [flattenOperands, Logged.gives_pure] at h
    exact h ▸ trivial
  | e :: es, es', h, hes => by
    rw [AnnotatedAll] at hes
    obtain ⟨⟨form, τ, l⟩, rest, he, hrest, h⟩ := flattenOperands_cons h
    have hannotated := hopt.simplify hes.1 he
    have hrest := flattenOperands_annotated hopt hrest hes.2
    obtain rfl | ⟨inner, hform, rfl⟩ := h
    · rw [AnnotatedAll]
      exact ⟨hannotated, hrest⟩
    · subst hform
      rw [Expr.Annotated, Form.annotated_joined] at hannotated
      rw [annotatedAll_iff] at hrest hannotated ⊢
      exact List.forall_mem_append.mpr ⟨hannotated.2, hrest⟩

theorem dropConstants_annotated {isAnd : Bool} {es kept : List Expr}
    (h : (dropConstants isAnd es).Gives (some kept)) (hes : AnnotatedAll Γ K es) :
    AnnotatedAll Γ K kept :=
  annotatedAll_iff.mpr fun e he => annotatedAll_iff.mp hes e ((dropConstants_sublist h).subset he)

theorem optimizeLogic_annotated (hopt : opt.Sound) {isAnd : Bool} {operands : List Expr}
    (h : (optimizeLogic opt scope isAnd operands l).Gives e)
    (hes : AnnotatedAll scope.visible K operands) : e.Annotated scope.visible K := by
  obtain ⟨es, hflat, h⟩ := optimizeLogic_cases h
  have hes := flattenOperands_annotated hopt hflat hes
  obtain rfl | ⟨-, rfl⟩ | ⟨-, rfl⟩ | ⟨operand, hkept, h⟩ | ⟨kept, hkept, rfl⟩ := h
  · exact annotated_joined hes
  · exact Expr.annotated_at?.mpr Expr.annotated_ofBool
  · exact Expr.annotated_at?.mpr Expr.annotated_ofBool
  · exact optimizeCall_annotated hopt h (dropConstants_annotated hkept hes)
  · exact annotated_joined (dropConstants_annotated hkept hes)

/-! ### Conditionals -/

theorem optimizeConditional_annotated (hopt : opt.Sound) {condition yes no : Expr}
    (h : (optimizeConditional opt scope condition yes no l).Gives e)
    (hcondition : condition.Annotated scope.visible K) (hyes : yes.Annotated scope.visible K)
    (hno : no.Annotated scope.visible K) : e.Annotated scope.visible K := by
  obtain ⟨condition', hc, ⟨b, -, rfl⟩ | rfl⟩ := optimizeConditional_cases h
  · cases b with
    | true => exact hyes
    | false => exact hno
  · simp only [Expr.Annotated, Form.Annotated, Form.Infers]
    exact ⟨⟨_, _, hyes.infers, hno.infers, rfl⟩, hopt.simplify hcondition hc, hyes, hno⟩

end

/-! ### Comparisons -/

section

variable {scope : Scope} {style : CompareStyle} {op : CompareOp} {left right e : Expr}
    {l : Option Location}

theorem foldComparison_annotated {vs ws : List Atomic}
    (h : (foldComparison style op left right vs ws l).Gives e) : e.Annotated Γ K := by
  obtain ⟨b, rfl, -⟩ | ⟨-, -, rfl⟩ := foldComparison_cases h
  · exact Expr.annotated_ofBool
  · exact Expr.annotated_empty

theorem annotated_comparison (hleft : left.Annotated Γ K) (hright : right.Annotated Γ K) :
    (⟨.comparison style op left right, comparisonType style left right, l⟩ :
      Expr).Annotated Γ K := by
  simp only [Expr.Annotated, Form.Annotated, Form.Infers]
  refine ⟨⟨_, _, hleft.infers, hright.infers, ?_⟩, hleft, hright⟩
  cases style <;> rfl

theorem optimizeComparison_annotated (h : (optimizeComparison scope style op left right l).Gives e)
    (hleft : left.Annotated Γ K) (hright : right.Annotated Γ K) : e.Annotated Γ K := by
  obtain rfl | rfl | ⟨vs, ws, folded, place, -, -, hfolded, rfl⟩ | ⟨-, -, rfl⟩ :=
    optimizeComparison_cases h
  · exact annotated_comparison hleft hright
  · exact annotated_comparison hright hleft
  · exact Expr.annotated_at?.mpr (foldComparison_annotated hfolded)
  · exact Expr.annotated_at?.mpr Expr.annotated_ofBool

end

end TreeQuery
