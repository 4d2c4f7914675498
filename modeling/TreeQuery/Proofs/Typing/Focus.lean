import TreeQuery.Proofs.Typing.Judgement
/-!
# Static types in another focus

Static types stay as they are where more is known of the item in focus (`Expr.Annotated.mono`), and
in every focus if the expression does not depend on the context item. Chains fit together end to
end, which is what the flattening of nested paths rests on.
-/

namespace TreeQuery

variable {Γ : List Variable} {K L : Knowledge} {t : ItemType}

/-! ### Knowledge -/

namespace Knowledge

theorem Implies.of_mem (h : K t) : K.Implies t := .inr ⟨t, h, ItemType.instanceOf_refl t⟩

theorem Implies.trans {u : ItemType} (h : K.Implies t) (hu : t.instanceOf u = true) :
    K.Implies u := by
  rcases h with rfl | ⟨w, hw, hwt⟩
  · cases u <;> simp [ItemType.instanceOf, ItemType.relates, Variance.apply,
      ItemType.surfaceInstanceOf] at hu
    exact .inl rfl
  · exact .inr ⟨w, hw, ItemType.instanceOf_trans hwt hu⟩

theorem Implies.refine (h : L.Refines K) (ht : K.Implies t) : L.Implies t := by
  rcases ht with rfl | ⟨u, hu, hut⟩
  · exact .inl rfl
  · exact (h u hu).trans hut

namespace Refines

theorem of_forall (h : ∀ t, K t → L t) : L.Refines K := fun t ht => .of_mem (h t ht)

theorem refl (K : Knowledge) : K.Refines K := of_forall fun _ => id

theorem trans {M : Knowledge} (h : M.Refines L) (h' : L.Refines K) : M.Refines K :=
  fun t ht => (h' t ht).refine h

end Refines

theorem Holds.implies {forest : Forest} {item : Item} (h : K.Holds forest item) (ht : K.Implies t) :
    item.isInstance forest t = true := by
  rcases ht with rfl | ⟨u, hu, hut⟩
  · exact Item.isInstance_any
  · exact Item.isInstance_of_instanceOf (h u hu) hut

end Knowledge

/-! ### Lists -/

theorem annotatedAll_iff {es : List Expr} : AnnotatedAll Γ K es ↔ ∀ e ∈ es, e.Annotated Γ K := by
  induction es with
  | nil => simp [AnnotatedAll]
  | cons e es ih => simp [AnnotatedAll, ih]

theorem AnnotatedAll.dropLast {es : List Expr} (h : AnnotatedAll Γ K es) :
    AnnotatedAll Γ K es.dropLast := by
  rw [annotatedAll_iff] at h ⊢
  exact fun e he => h e (List.dropLast_sublist es |>.mem he)

/-! ### Another focus -/

/-- An expression keeps its static types where no less is known of the item in focus, or if it does
not depend on it. -/
def Refocuses (K L : Knowledge) (dependent : Bool) : Prop := L.Refines K ∨ dependent = false

namespace Refocuses

variable {a b : Bool}

theorem left (h : Refocuses K L (a || b)) : Refocuses K L a :=
  h.imp_right fun h => (Bool.or_eq_false_iff.mp h).1

theorem right (h : Refocuses K L (a || b)) : Refocuses K L b :=
  h.imp_right fun h => (Bool.or_eq_false_iff.mp h).2

end Refocuses

mutual

theorem Expr.Infers.refocus : {e : Expr} → {K L : Knowledge} → {τ : StaticType} →
    Refocuses K L (e.dependsOn .context) →
    e.Infers K τ → e.Infers L τ
  | ⟨form, _, _⟩, K, L, τ, h, hτ => by
    rw [Expr.Infers] at hτ ⊢
    exact Form.Infers.refocus (by simpa only [Expr.dependsOn] using h) hτ

theorem Form.Infers.refocus : {form : Form} → {K L : Knowledge} → {τ : StaticType} →
    Refocuses K L (form.dependsOn .context) → form.Infers K τ → form.Infers L τ
  | .literal _, _, _, _, _, hτ | .function _, _, _, _, _, hτ | .position _, _, _, _, _,
    hτ | .conjunction _, _, _, _, _, hτ
  | .disjunction _, _, _, _, _, hτ | .containsText .., _, _, _, _, hτ | .step .., _, _, _, _, hτ
  | .reference _, _, _, _, _, hτ => by
    simpa only [Form.Infers] using hτ
  | .failure _, _, _, _, _, _ => trivial
  | .contextItem, K, L, τ, h, hτ => by
    simp only [Form.Infers] at hτ ⊢
    have hrefines := h.resolve_right (by simp [Form.dependsOn])
    exact hτ.imp_right fun ⟨t, ht, hτ⟩ => ⟨t, ht.refine hrefines, hτ⟩
  | .comparison .., K, L, τ, h, hτ => by
    simp only [Form.Infers, Form.dependsOn] at h hτ ⊢
    obtain ⟨σ, ρ, hσ, hρ, rfl⟩ := hτ
    exact ⟨σ, ρ, hσ.refocus h.left, hρ.refocus h.right, rfl⟩
  | .call f [], K, L, τ, _, hτ => by cases f <;> simpa only [Form.Infers] using hτ
  | .call f (arg :: _), K, L, τ, h, hτ => by
    simp only [Form.dependsOn, anyDependsOn] at h
    cases f <;> simp only [Form.Infers] at hτ ⊢ <;> first | exact hτ | exact hτ.refocus h.right.left
  | .path root _, K, L, τ, h, hτ => by
    simp only [Form.Infers, Form.dependsOn] at h hτ ⊢
    obtain ⟨σ, σs, hσ, hσs, rfl⟩ := hτ
    refine ⟨σ, σs, hσ.refocus h.left, hσs.refine (.of_forall ?_), rfl⟩
    exact fun t ⟨ρ, hρ, ht⟩ => ⟨ρ, hρ.refocus h.left, ht⟩
  | .relativePath _, K, L, τ, h, hτ => by
    simp only [Form.Infers] at hτ ⊢
    obtain ⟨σs, hσs, rfl⟩ := hτ
    exact ⟨σs, hσs.refine (h.resolve_right (by simp [Form.dependsOn])), rfl⟩
  | .map [], K, L, τ, _, hτ => by simpa only [Form.Infers, InfersChain] using hτ
  | .map (first :: _), K, L, τ, h, hτ => by
    simp only [Form.Infers, InfersChain, Form.dependsOn] at h hτ ⊢
    obtain ⟨_, ⟨σ, σs, hσ, hσs, rfl⟩, rfl⟩ := hτ
    refine ⟨_, ⟨σ, σs, hσ.refocus h.left, hσs.refine (.of_forall ?_), rfl⟩, rfl⟩
    exact fun t ⟨ρ, hρ, ht⟩ => ⟨ρ, hρ.refocus h.left, ht⟩
  | .filter .., K, L, τ, h, hτ => by
    simp only [Form.Infers, Form.dependsOn] at h hτ ⊢
    obtain ⟨σ, hσ, rfl⟩ := hτ
    exact ⟨σ, hσ.refocus h.left, rfl⟩
  | .conditional .., K, L, τ, h, hτ => by
    simp only [Form.Infers, Form.dependsOn] at h hτ ⊢
    obtain ⟨σ, ρ, hσ, hρ, rfl⟩ := hτ
    exact ⟨σ, ρ, hσ.refocus h.left.right, hρ.refocus h.right, rfl⟩
  | .apply .., K, L, τ, h, hτ => by
    simp only [Form.Infers, Form.dependsOn] at h hτ ⊢
    exact hτ.imp_right fun ⟨σ, s, hσ, hs⟩ => ⟨σ, s, hσ.refocus h.left.right, hs⟩
  | .check .., K, L, τ, h, hτ => by
    simp only [Form.Infers, Form.dependsOn] at h hτ ⊢
    obtain ⟨σ, hσ, rfl⟩ := hτ
    exact ⟨σ, hσ.refocus h, rfl⟩

theorem InfersChain.refine : {es : List Expr} → {K L : Knowledge} →
    {τs : List StaticType} → L.Refines K →
    InfersChain K es τs → InfersChain L es τs
  | [], _, _, _, _, hes => by simpa only [InfersChain] using hes
  | e :: es, K, L, τs, h, hes => by
    simp only [InfersChain] at hes ⊢
    obtain ⟨τ, σs, hτ, hσs, rfl⟩ := hes
    refine ⟨τ, σs, hτ.refocus (.inl h), hσs.refine (.of_forall ?_), rfl⟩
    exact fun t ⟨ρ, hρ, ht⟩ => ⟨ρ, hρ.refocus (.inl h), ht⟩

end

theorem Knowledge.Refines.offers {e : Expr} (h : Refocuses K L (e.dependsOn .context)) :
    (e.Offers L).Refines (e.Offers K) :=
  .of_forall fun _ ⟨σ, hσ, ht⟩ => ⟨σ, hσ.refocus h, ht⟩

mutual

/-- Annotations stay right in another focus. -/
theorem Expr.Annotated.refocus :
    {e : Expr} → {K L : Knowledge} → Refocuses K L (e.dependsOn .context) →
    e.Annotated Γ K → e.Annotated Γ L
  | ⟨form, _, _⟩, K, L, h, he => by
    rw [Expr.dependsOn] at h
    rw [Expr.Annotated] at he ⊢
    exact ⟨he.1.refocus h, Form.Annotated.refocus h he.2⟩

theorem Form.Annotated.refocus : {form : Form} → {K L : Knowledge} →
    Refocuses K L (form.dependsOn .context) →
    form.Annotated Γ K → form.Annotated Γ L
  | .function _, _, _, _, hf | .step .., _, _, _, hf | .reference _, _, _, _, hf => by
    simpa only [Form.Annotated] using hf
  | .literal _, _, _, _, _ | .contextItem, _, _, _, _ | .position _, _, _, _,
    _ | .failure _, _, _, _, _
  | .map [], _, _, _, _ => trivial
  | .conjunction _, _, _, h, hf | .disjunction _, _, _, h, hf => by
    simp only [Form.Annotated, Form.dependsOn] at h hf ⊢
    exact AnnotatedAll.refocus h hf
  | .call .., _, _, h, hf => by
    simp only [Form.Annotated, Form.dependsOn] at h hf ⊢
    exact AnnotatedAll.refocus h.right hf
  | .comparison .., _, _, h, hf | .containsText .., _, _, h, hf => by
    simp only [Form.Annotated, Form.dependsOn] at h hf ⊢
    exact ⟨hf.1.refocus h.left, hf.2.refocus h.right⟩
  | .path .., _, _, h, hf => by
    simp only [Form.Annotated, Form.dependsOn] at h hf ⊢
    exact ⟨hf.1.refocus h.left, hf.2.refine (.offers h.left)⟩
  | .relativePath _, _, _, h, hf => by
    simp only [Form.Annotated] at hf ⊢
    exact AnnotatedChain.refine (h.resolve_right (by simp [Form.dependsOn])) hf
  | .map (_ :: _), _, _, h, hf => by
    simp only [Form.Annotated, AnnotatedChain, Form.dependsOn] at h hf ⊢
    exact ⟨hf.1.refocus h.left, hf.2.refine (.offers h.left)⟩
  | .filter .., _, _, h, hf => by
    simp only [Form.Annotated, Form.dependsOn] at h hf ⊢
    exact ⟨hf.1.refocus h.left, AnnotatedAll.refine (.offers h.left) hf.2⟩
  | .conditional .., _, _, h, hf => by
    simp only [Form.Annotated, Form.dependsOn] at h hf ⊢
    exact ⟨hf.1.refocus h.left.left, hf.2.1.refocus h.left.right, hf.2.2.refocus h.right⟩
  | .apply .., _, _, h, hf => by
    simp only [Form.Annotated, Form.dependsOn] at h hf ⊢
    exact ⟨hf.1.refocus h.left.right, AnnotatedAll.refocus h.right hf.2⟩
  | .check .., _, _, h, hf => by
    simp only [Form.Annotated, Form.dependsOn] at h hf ⊢
    exact hf.refocus h

theorem AnnotatedAll.refocus : {es : List Expr} → {K L : Knowledge} →
    Refocuses K L (anyDependsOn .context es) →
    AnnotatedAll Γ K es → AnnotatedAll Γ L es
  | [], _, _, _, _ => trivial
  | _ :: _, _, _, h, hes => by
    simp only [AnnotatedAll, anyDependsOn] at h hes ⊢
    exact ⟨hes.1.refocus h.left, AnnotatedAll.refocus h.right hes.2⟩

theorem AnnotatedAll.refine : {es : List Expr} → {K L : Knowledge} → L.Refines K →
    AnnotatedAll Γ K es →
    AnnotatedAll Γ L es
  | [], _, _, _, _ => trivial
  | _ :: _, _, _, h, hes => by
    simp only [AnnotatedAll] at hes ⊢
    exact ⟨hes.1.refocus (.inl h), AnnotatedAll.refine h hes.2⟩

theorem AnnotatedChain.refine : {es : List Expr} → {K L : Knowledge} → L.Refines K →
    AnnotatedChain Γ K es →
    AnnotatedChain Γ L es
  | [], _, _, _, _ => trivial
  | _ :: _, _, _, h, hes => by
    simp only [AnnotatedChain] at hes ⊢
    exact ⟨hes.1.refocus (.inl h), hes.2.refine (.offers (.inl h))⟩

end

theorem Expr.Annotated.mono {e : Expr} (h : L.Refines K) (he : e.Annotated Γ K) : e.Annotated Γ L :=
  he.refocus (.inl h)

end TreeQuery
