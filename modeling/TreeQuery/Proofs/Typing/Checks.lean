import TreeQuery.Proofs.Typing.Conformance
import TreeQuery.Proofs.Typing.Constants
import TreeQuery.Proofs.Typing.Logic
/-!
# The rules for type checks and calls keep annotations right

Besides, what a check is resolved to is seen to be of its target: the body of a function, which is
checked against the result type of the function's signature, always gives a result of that type.
-/

namespace TreeQuery

variable {Γ : List Variable} {K : Knowledge}

theorem Expr.meets_of_instanceOf {e : Expr} {s : SeqType} (h : e.type.instanceOf s = true) :
    e.Meets s := by
  obtain ⟨form, τ, l⟩ := e
  cases form <;> simp only [Expr.Meets] <;> first | exact h | exact .inl h

/-! ### Checks at run time -/

theorem checkType_instanceOf (t : StaticType) (target : SeqType) :
    (checkType t target).instanceOf target = true := by
  have hitem : (if t.item.instanceOf target.item then t.item else target.item).instanceOf
      target.item = true := by
    split
    · assumption
    · exact ItemType.instanceOf_refl _
  rw [StaticType.instanceOf, SeqType.instanceOf_iff, checkType, StaticType.make.eq_def]
  split
  · next n hn =>
      exact ⟨Occurrence.ofSize_instanceOf (Option.filter_eq_some_iff.mp hn).2, .inr hitem⟩
  · refine ⟨?_, .inr hitem⟩
    cases hinter : t.occurrence.intersect target.occurrence with
    | none => exact Occurrence.instanceOf_refl _
    | some o => exact Occurrence.intersect_instanceOf hinter

section

variable {e e' : Expr} {target : SeqType} {promote : Bool} {l : Option Location}

theorem runtimeCheck_annotated (he : e.Annotated Γ K) :
    (runtimeCheck e target promote l).Annotated Γ K := by
  simp only [runtimeCheck, Expr.Annotated, Form.Annotated, Form.Infers]
  exact ⟨⟨e.type, he.infers, rfl⟩, he⟩

theorem runtimeCheck_meets : (runtimeCheck e target promote l).Meets target :=
  Expr.meets_of_instanceOf (checkType_instanceOf e.type target)

/-! ### Checks of constants -/

theorem checkAtomic_admits {v w : Atomic} (h : checkAtomic target promote v = .ok w) :
    target.item.admits w = true := by
  unfold checkAtomic at h
  split at h
  · next hv => exact Except.ok.inj h ▸ hv
  · split at h
    · next t ht =>
      split at h
      · split at h
        · next x hx =>
          obtain rfl := Except.ok.inj h
          rw [ht]
          exact Atomic.promote_type hx
        · cases h
        · cases h
      · cases h
    · cases h

theorem mapM_checkAtomic {values values' : List Atomic}
    (h : values.mapM (checkAtomic target promote) = .ok values') :
    values'.length = values.length ∧ ∀ w ∈ values', target.item.admits w = true := by
  induction values generalizing values' with
  | nil =>
    obtain rfl : [] = values' := by simpa [pure, Except.pure] using h
    simp
  | cons v values ih =>
    rw [List.mapM_cons] at h
    cases hv : checkAtomic target promote v with
    | error c => simp [hv, bind, Except.bind] at h
    | ok w =>
      cases hrest : values.mapM (checkAtomic target promote) with
      | error c => simp [hv, hrest, bind, Except.bind] at h
      | ok ws =>
        obtain rfl : w :: ws = values' := by
          simpa [hv, hrest, bind, Except.bind, pure, Except.pure] using h
        obtain ⟨hlength, hadmits⟩ := ih hrest
        exact ⟨by simp [hlength], by simpa using ⟨checkAtomic_admits hv, hadmits⟩⟩

theorem checkAtomics_ok {values values' : List Atomic}
    (h : checkAtomics values target promote = .ok values') :
    values'.length = values.length ∧ (literalType values').instanceOf target = true := by
  unfold checkAtomics at h
  split at h
  · next hadmits =>
    obtain ⟨hlength, hitem⟩ := mapM_checkAtomic h
    exact ⟨hlength, literalType_instanceOf hitem (hlength ▸ hadmits)⟩
  · cases h

theorem checkLiteral_annotated {values : List Atomic}
    (h : (checkLiteral e values target promote l).Gives e') (hlength : values.length ≤ noEnd) :
    e'.Annotated Γ K ∧ e'.Meets target := by
  obtain ⟨values', place, hvalues, rfl⟩ := checkLiteral_cases h
  obtain ⟨hlength', htype⟩ := checkAtomics_ok hvalues
  refine ⟨Expr.annotated_at?.mpr (Expr.annotated_literal (hlength' ▸ hlength)), ?_⟩
  exact Expr.meets_at?.mpr (Expr.meets_of_instanceOf htype)

/-! ### Checks of functions -/

theorem annotated_function {f : FunctionItem} (h : f.Good) :
    (Expr.of (.function f)).Annotated Γ K := by
  simp only [Expr.of, Form.type, Expr.Annotated, Form.Annotated, Form.Infers]
  exact ⟨trivial, h⟩

theorem checkFunction_annotated {f : FunctionItem}
    (h : (checkFunction e f target promote l).Gives e') (hf : f.Good) :
    e'.Annotated Γ K ∧ e'.Meets target := by
  obtain ⟨s, g, hs, hadmits, -, hg, rfl⟩ := checkFunction_cases h
  obtain ⟨hsignature, hgood⟩ := FunctionItem.coerce_ok hg
  refine ⟨Expr.annotated_at?.mpr (annotated_function (hgood hf)),
    Expr.meets_at?.mpr (Expr.meets_of_instanceOf ?_)⟩
  rw [StaticType.instanceOf, SeqType.instanceOf_iff]
  refine ⟨Occurrence.ofSize_instanceOf (n := 1) hadmits, .inr ?_⟩
  rw [hs]
  exact hsignature

/-! ### Checks resolved -/

section

variable {opt : Optimizer} {scope : Scope}

/-- A check is resolved to an expression that is annotated and seen to be of the target. -/
theorem Expr.checkAs_annotated (hopt : opt.Sound) : {e e' : Expr} → {l : Option Location} →
    (e.checkAs opt scope target promote l).Gives e' → e.Annotated scope.visible K →
    e'.Annotated scope.visible K ∧ e'.Meets target
  | ⟨form, τ, place⟩, e', l, h, he => by
    replace h := Expr.checkAs_cases h
    obtain rfl | ⟨htype, rfl⟩ | ⟨f, hform, h⟩ | ⟨values, hform, h⟩ |
      ⟨condition, yes, no, yes', no', hform, hyes, hno, h⟩ := h
    · exact ⟨runtimeCheck_annotated he, runtimeCheck_meets⟩
    · exact ⟨he, Expr.meets_of_instanceOf htype⟩
    · subst hform
      simp only [Expr.Annotated, Form.Annotated] at he
      exact checkFunction_annotated h he.2
    · subst hform
      simp only [Expr.Annotated, Form.Infers] at he
      exact checkLiteral_annotated h he.1.1
    · subst hform
      simp only [Expr.Annotated, Form.Annotated] at he
      obtain ⟨hyes, hyes'⟩ := Expr.checkAs_annotated hopt hyes he.2.2.1
      obtain ⟨hno, hno'⟩ := Expr.checkAs_annotated hopt hno he.2.2.2
      refine ⟨optimizeConditional_annotated hopt h he.2.1 hyes hno, ?_⟩
      obtain ⟨condition', -, ⟨b, -, rfl⟩ | rfl⟩ := optimizeConditional_cases h
      · cases b with
        | true => exact hyes'
        | false => exact hno'
      · exact .inr ⟨hyes', hno'⟩

end

end

/-! ### Calls of function items -/

theorem dropRedundantChecks_annotated {args args' : List Expr} {vs : List Variable}
    (h : (dropRedundantChecks args vs).Gives args') (hargs : AnnotatedAll Γ K args) :
    AnnotatedAll Γ K args' := by
  rw [annotatedAll_iff] at hargs ⊢
  intro arg harg
  obtain hmem | ⟨target, promote, τ, l, hmem⟩ := dropRedundantChecks_mem h arg harg
  · exact hargs arg hmem
  · have hcheck := hargs _ hmem
    simp only [Expr.Annotated, Form.Annotated] at hcheck
    exact hcheck.2

section

variable {scope : Scope} {f e : Expr} {args : List Expr} {l : Option Location}

theorem annotated_apply {signature : Option Signature} (hf : f.Annotated Γ K)
    (hargs : AnnotatedAll Γ K args)
    (hsignature : ∀ s, signature = some s → f.type.item = .functionOf s) :
    (⟨.apply f args, applyType signature, l⟩ : Expr).Annotated Γ K := by
  simp only [Expr.Annotated, Form.Annotated, Form.Infers]
  refine ⟨?_, hf, hargs⟩
  cases signature with
  | none => exact .inl rfl
  | some s => exact .inr ⟨f.type, s, hf.infers, hsignature s rfl, rfl⟩

theorem optimizeApply_annotated (h : (optimizeApply scope f args l).Gives e) (hf : f.Annotated Γ K)
    (hargs : AnnotatedAll Γ K args) : e.Annotated Γ K := by
  obtain ⟨signature, args', hsignature, hargs', rfl⟩ := optimizeApply_cases h
  obtain rfl | ⟨vs, hdrop⟩ := hargs'
  · exact annotated_apply hf hargs hsignature
  · exact annotated_apply hf (dropRedundantChecks_annotated hdrop hargs) hsignature

end

end TreeQuery
