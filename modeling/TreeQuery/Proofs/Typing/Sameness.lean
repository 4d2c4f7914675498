import TreeQuery.Proofs.Typing.Focus
/-!
# Static types of expressions that are the same

Sameness takes no notice of annotations, and neither does `Expr.Infers`: `Expr.Infers.same`.
-/

namespace TreeQuery

theorem Atomic.type_eq_of_same {v w : Atomic} (h : v.same w = true) : v.type = w.type := by
  cases v <;> cases w <;> first | rfl | simp [Atomic.same] at h

theorem foldl_eq_of_same {β : Type} {g : β → Atomic → β}
    (hg : ∀ b v w, v.type = w.type → g b v = g b w) :
    {vs ws : List Atomic} → sameValues vs ws = true → (b : β) → vs.foldl g b = ws.foldl g b ∧
    vs.length = ws.length
  | [], [], _, _ => ⟨rfl, rfl⟩
  | [], _ :: _, h, _ => by simp [sameValues] at h
  | _ :: _, [], h, _ => by simp [sameValues] at h
  | v :: vs, w :: ws, h, b => by
    simp only [sameValues, Bool.and_eq_true] at h
    obtain ⟨hfold, hlength⟩ := foldl_eq_of_same hg h.2 (g b v)
    simp only [List.foldl_cons, List.length_cons, hlength, ← hg b v w (Atomic.type_eq_of_same h.1),
      hfold, and_self]

theorem literalType_eq_of_same {vs ws : List Atomic} (h : sameValues vs ws = true) :
    literalType vs = literalType ws ∧ vs.length = ws.length := by
  have hlength : vs.length = ws.length :=
    (foldl_eq_of_same (g := fun _ _ => ()) (fun _ _ _ _ => rfl) h ()).2
  refine ⟨?_, hlength⟩
  rw [literalType, literalType, hlength]
  refine congrArg (fun i : Option ItemType => StaticType.sized (i.getD .any) _)
    (foldl_eq_of_same ?_ h none).1
  intro seen v w htype
  rw [htype]

namespace Expr

theorem isCallOf_eq_of_same {e f : Expr} (h : e.same f = true) (b : Builtin) :
    e.isCallOf b = f.isCallOf b := by
  obtain ⟨e, _, _⟩ := e
  obtain ⟨f, _, _⟩ := f
  simp only [Expr.same] at h
  cases e <;> cases f <;> simp_all [Form.same, isCallOf]

theorem window?_eq_of_same {e f : Expr} (h : e.same f = true) : e.window? = f.window? := by
  obtain ⟨e, _, _⟩ := e
  obtain ⟨f, _, _⟩ := f
  simp only [Expr.same] at h
  cases e <;> cases f <;> simp_all [Form.same, window?]

end Expr

theorem limits_eq_of_same : {es fs : List Expr} → sameExprs es fs = true →
    (∀ most, es.foldl (fun most e => limitBy e most) most = fs.foldl
      (fun most e => limitBy e most) most) ∧
      es.all limitsExactly = fs.all limitsExactly
  | [], [], _ => ⟨fun _ => rfl, rfl⟩
  | [], _ :: _, h => by simp [sameExprs] at h
  | _ :: _, [], h => by simp [sameExprs] at h
  | e :: es, f :: fs, h => by
    simp only [sameExprs, Bool.and_eq_true] at h
    obtain ⟨hfold, hall⟩ := limits_eq_of_same h.2
    have hlimit (most : Option Nat) : limitBy e most = limitBy f most := by
      simp only [limitBy, Expr.isCallOf_eq_of_same h.1, Expr.window?_eq_of_same h.1]
    simp [hlimit, hfold, hall, limitsExactly, Expr.isCallOf_eq_of_same h.1,
      Expr.window?_eq_of_same h.1]

theorem filterType_eq_of_same {es fs : List Expr} (h : sameExprs es fs = true) (t : StaticType) :
    filterType t es = filterType t fs := by
  simp only [filterType, filteredType, (limits_eq_of_same h).1, (limits_eq_of_same h).2]

theorem FunctionItem.signature_eq_of_same {f g : FunctionItem} (h : f.same g = true) :
    f.signature = g.signature := by
  cases f <;> cases g <;> simp_all [FunctionItem.same, FunctionItem.signature]

mutual

theorem Expr.Infers.same : {e f : Expr} → e.same f = true → {K : Knowledge} → {τ : StaticType} →
    (e.Infers K τ ↔ f.Infers K τ)
  | ⟨e, _, _⟩, ⟨f, _, _⟩, h, K, τ => by
    rw [Expr.same] at h
    rw [Expr.Infers, Expr.Infers]
    exact Form.Infers.same h

theorem Form.Infers.same : {e f : Form} → e.same f = true → {K : Knowledge} → {τ : StaticType} →
    (e.Infers K τ ↔ f.Infers K τ)
  | .literal vs, f, h, K, τ => by
    cases f <;> simp only [Form.same, Bool.false_eq_true] at h
    next ws =>
      obtain ⟨htype, hlength⟩ := literalType_eq_of_same h
      have hnil : vs = [] ↔ ws = [] := by
        rw [← List.length_eq_zero_iff, hlength, List.length_eq_zero_iff]
      simp only [Form.Infers, TypesConstants, htype, hlength, hnil]
  | .function g, f, h, K, τ => by
    cases f <;> simp only [Form.same, Bool.false_eq_true] at h
    simp only [Form.Infers, FunctionItem.signature_eq_of_same h]
  | .contextItem, f, h, K, τ => by
    cases f <;> simp only [Form.same, Bool.false_eq_true] at h
    rfl
  | .position _, f, h, K, τ => by
    cases f <;> simp only [Form.same, Bool.false_eq_true] at h
    simp only [Form.Infers]
  | .conjunction _, f, h, K, τ => by
    cases f <;> simp only [Form.same, Bool.false_eq_true] at h
    simp only [Form.Infers]
  | .disjunction _, f, h, K, τ => by
    cases f <;> simp only [Form.same, Bool.false_eq_true] at h
    simp only [Form.Infers]
  | .containsText _ _, f, h, K, τ => by
    cases f <;> simp only [Form.same, Bool.false_eq_true] at h
    simp only [Form.Infers]
  | .comparison _ _ left right, f, h, K, τ => by
    cases f <;> simp only [Form.same, Bool.false_eq_true, Bool.and_eq_true, beq_iff_eq] at h
    obtain ⟨⟨⟨rfl, rfl⟩, hleft⟩, hright⟩ := h
    simp only [Form.Infers, Expr.Infers.same hleft, Expr.Infers.same hright]
  | .call b es, f, h, K, τ => by
    cases f <;> simp only [Form.same, Bool.false_eq_true, Bool.and_eq_true, beq_iff_eq] at h
    next b' fs =>
      obtain ⟨rfl, h⟩ := h
      cases es with
      | nil => cases fs <;> simp_all [sameExprs]
      | cons e es =>
        cases fs with
        | nil => simp [sameExprs] at h
        | cons f fs =>
          simp only [sameExprs, Bool.and_eq_true] at h
          cases b <;> simp only [Form.Infers, Expr.Infers.same h.1]
  | .step _ _ _, f, h, K, τ => by
    cases f <;> simp only [Form.same, Bool.false_eq_true, Bool.and_eq_true, beq_iff_eq] at h
    obtain ⟨⟨rfl, rfl⟩, h⟩ := h
    simp only [Form.Infers, filterType_eq_of_same h]
  | .path root steps, f, h, K, τ => by
    cases f <;> simp only [Form.same, Bool.false_eq_true, Bool.and_eq_true] at h
    have hroot {σ : StaticType} := Expr.Infers.same h.1 (K := K) (τ := σ)
    simp only [Form.Infers, hroot, InfersChain.same h.2]
  | .relativePath _, f, h, K, τ => by
    cases f <;> simp only [Form.same, Bool.false_eq_true] at h
    simp only [Form.Infers, InfersChain.same h]
  | .map _, f, h, K, τ => by
    cases f <;> simp only [Form.same, Bool.false_eq_true] at h
    simp only [Form.Infers, InfersChain.same h]
  | .filter _ _, f, h, K, τ => by
    cases f <;> simp only [Form.same, Bool.false_eq_true, Bool.and_eq_true] at h
    simp only [Form.Infers, Expr.Infers.same h.1, filterType_eq_of_same h.2]
  | .conditional _ _ _, f, h, K, τ => by
    cases f <;> simp only [Form.same, Bool.false_eq_true, Bool.and_eq_true] at h
    simp only [Form.Infers, Expr.Infers.same h.1.2, Expr.Infers.same h.2]
  | .reference _, f, h, K, τ => by
    cases f <;> simp only [Form.same, Bool.false_eq_true, beq_iff_eq] at h
    simp only [Form.Infers, h]
  | .apply _ _, f, h, K, τ => by
    cases f <;> simp only [Form.same, Bool.false_eq_true, Bool.and_eq_true] at h
    simp only [Form.Infers, Expr.Infers.same h.1]
  | .check _ _ _, f, h, K, τ => by
    cases f <;> simp only [Form.same, Bool.false_eq_true, Bool.and_eq_true, beq_iff_eq] at h
    obtain ⟨⟨h, rfl⟩, rfl⟩ := h
    simp only [Form.Infers, Expr.Infers.same h]
  | .failure _, f, h, K, τ => by
    cases f <;> simp only [Form.same, Bool.false_eq_true] at h
    simp only [Form.Infers]

theorem InfersChain.same : {es fs : List Expr} → sameExprs es fs = true → {K : Knowledge} →
    {τs : List StaticType} →
    (InfersChain K es τs ↔ InfersChain K fs τs)
  | [], [], _, _, _ => by simp only [InfersChain]
  | [], _ :: _, h, _, _ => by simp [sameExprs] at h
  | _ :: _, [], h, _, _ => by simp [sameExprs] at h
  | e :: es, f :: fs, h, K, τs => by
    simp only [sameExprs, Bool.and_eq_true] at h
    simp only [InfersChain, Expr.Infers.same h.1, InfersChain.same h.2]

end

theorem Expr.Offers.same {e f : Expr} (h : e.same f = true) {K : Knowledge} :
    e.Offers K = f.Offers K := by
  funext t
  simp only [Expr.Offers, Expr.Infers.same h]

end TreeQuery
