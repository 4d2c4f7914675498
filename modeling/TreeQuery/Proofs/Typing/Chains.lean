import TreeQuery.Proofs.Typing.Annotation
/-!
# The rules for paths and maps keep annotations right

A chain of operands knows of the items in focus what the operand before offers. Chains are put
together and taken apart through `chainOffers`, what is known at their end; the steps of a nested
relative path fit in its place because of that.
-/

namespace TreeQuery

variable {Γ : List Variable} {K : Knowledge}

def chainOffers (K : Knowledge) : List Expr → Knowledge
  | [] => K
  | e :: es => chainOffers (e.Offers K) es

theorem annotatedChain_append : {es fs : List Expr} → {K : Knowledge} →
    (AnnotatedChain Γ K (es ++ fs) ↔ AnnotatedChain Γ K es ∧ AnnotatedChain Γ (chainOffers K es) fs)
  | [], _, _ => by simp [AnnotatedChain, chainOffers]
  | e :: es, fs, K => by
    simp only [List.cons_append, AnnotatedChain, chainOffers, annotatedChain_append, and_assoc]

theorem AnnotatedChain.infers : {es : List Expr} → {K : Knowledge} → AnnotatedChain Γ K es →
    InfersChain K es (es.map Expr.type)
  | [], _, _ => by simp [InfersChain]
  | e :: es, K, h => by
    simp only [AnnotatedChain] at h
    rw [List.map_cons, InfersChain]
    exact ⟨e.type, _, h.1.infers, h.2.infers, rfl⟩

theorem InfersChain.length_eq : {es : List Expr} → {σs : List StaticType} → {K : Knowledge} →
    InfersChain K es σs →
    σs.length = es.length
  | [], _, _, h => by
    simp only [InfersChain] at h
    simp [h]
  | _ :: _, _, _, h => by
    simp only [InfersChain] at h
    obtain ⟨τ, σs, -, hσs, rfl⟩ := h
    simp [hσs.length_eq]

theorem InfersChain.offers : {es : List Expr} → {σs : List StaticType} → {K : Knowledge} →
    InfersChain K es σs →
    {σ : StaticType} → σs.getLast? = some σ → chainOffers K es σ.item
  | [], _, _, h, σ, hσ => by
    simp only [InfersChain] at h
    simp [h] at hσ
  | [e], _, K, h, σ, hσ => by
    simp only [InfersChain] at h
    obtain ⟨τ, _, hτ, rfl, rfl⟩ := h
    obtain rfl : τ = σ := by simpa using hσ
    exact ⟨τ, hτ, rfl⟩
  | e :: f :: es, _, K, h, σ, hσ => by
    rw [InfersChain] at h
    obtain ⟨τ, σs, -, hσs, rfl⟩ := h
    have hne : σs ≠ [] := fun h0 => by simpa [h0] using hσs.length_eq
    rw [List.getLast?_cons_of_ne_nil hne] at hσ
    exact InfersChain.offers hσs hσ

/-- At its end a nested path tells as much of its items as it does as a whole. -/
theorem chainOffers_refines {inner : List Expr} {τ : StaticType} {l : Option Location} :
    (chainOffers K inner).Refines (Expr.Offers K ⟨.relativePath inner, τ, l⟩) := by
  rintro t ⟨σ, hσ, rfl⟩
  simp only [Expr.Infers, Form.Infers] at hσ
  obtain ⟨σs, hσs, rfl⟩ := hσ
  cases hlast : σs.getLast? with
  | none => exact .inl (by simp [pathType, StaticType.of, hlast])
  | some σ => exact .of_mem (by simpa [pathType, StaticType.of, hlast] using hσs.offers hlast)

theorem annotatedChain_flattenSteps {scope : Scope} :
    {steps : List Expr} → {K : Knowledge} → AnnotatedChain Γ K steps →
    AnnotatedChain Γ K (flattenSteps scope steps)
  | [], _, _ => trivial
  | ⟨form, τ, l⟩ :: es, K, h => by
    rw [AnnotatedChain] at h
    have ih : AnnotatedChain Γ (Expr.Offers K ⟨form, τ, l⟩) (flattenSteps scope es) :=
      annotatedChain_flattenSteps h.2
    have kept : AnnotatedChain Γ K (⟨form, τ, l⟩ :: flattenSteps scope es) := by
      rw [AnnotatedChain]
      exact ⟨h.1, ih⟩
    unfold flattenSteps
    split
    · next inner hform =>
      obtain rfl : form = .relativePath inner := hform
      cases scope.optimize
      · exact kept
      · rw [if_pos rfl, annotatedChain_append]
        have hinner := h.1
        simp only [Expr.Annotated, Form.Annotated] at hinner
        exact ⟨hinner.2, ih.refine chainOffers_refines⟩
    · exact kept

/-! ### Static types of chains -/

theorem lastItemType_eq (es : List Expr) :
    lastItemType es = ((es.map Expr.type).getLast?.map StaticType.item).getD .any := by
  rw [lastItemType, List.getLast?_map]
  cases es.getLast? <;> rfl

theorem pathType_eq (start : Occurrence) (es : List Expr) :
    StaticType.of (lastItemType es) (chainOccurrence start es) = pathType start
      (es.map Expr.type) := by
  rw [pathType, lastItemType_eq, chainOccurrence, List.foldl_map]

theorem mapType_eq (es : List Expr) :
    StaticType.make (lastItemType es) (chainOccurrence .one es) (productSize es) = mapType
      (es.map Expr.type) := by
  rw [mapType, lastItemType_eq, chainOccurrence, productSize, List.foldl_map, List.foldl_map]

/-! ### Paths -/

theorem annotated_path {root : Expr} {steps : List Expr} {l : Option Location}
    (hroot : root.Annotated Γ K) (hsteps : AnnotatedChain Γ (root.Offers K) steps) :
    (⟨.path root steps, .of (lastItemType steps) (chainOccurrence root.type.occurrence steps), l⟩ :
      Expr).Annotated Γ K := by
  simp only [Expr.Annotated, Form.Annotated, Form.Infers]
  exact ⟨⟨root.type, steps.map Expr.type, hroot.infers, hsteps.infers, pathType_eq _ _⟩, hroot,
    hsteps⟩

theorem annotated_relativePath {steps : List Expr} {l : Option Location}
    (hsteps : AnnotatedChain Γ K steps) :
    (⟨.relativePath steps, .of (lastItemType steps) (chainOccurrence .one steps), l⟩ :
      Expr).Annotated Γ K := by
  simp only [Expr.Annotated, Form.Annotated, Form.Infers]
  exact ⟨⟨steps.map Expr.type, hsteps.infers, pathType_eq _ _⟩, hsteps⟩

section

variable {scope : Scope} {steps : List Expr} {l : Option Location} {e : Expr}

theorem optimizePath_some_annotated {root : Expr}
    (h : (optimizePath scope (some root) steps l).Gives e) (hroot : root.Annotated Γ K)
    (hsteps : AnnotatedChain Γ (root.Offers K) steps) : e.Annotated Γ K := by
  obtain ⟨-, rfl⟩ | ⟨-, rfl⟩ | ⟨-, place, rfl⟩ := optimizePath_some_cases h
  · exact Expr.annotated_at?.mpr hroot
  · exact annotated_path hroot (annotatedChain_flattenSteps hsteps)
  · exact Expr.annotated_at?.mpr Expr.annotated_empty

theorem optimizePath_none_annotated (h : (optimizePath scope none steps l).Gives e)
    (hsteps : AnnotatedChain Γ K steps) : e.Annotated Γ K := by
  have hflat : AnnotatedChain Γ K (flattenSteps scope steps) := annotatedChain_flattenSteps hsteps
  obtain ⟨-, rfl⟩ | ⟨hsingle, -⟩ | ⟨-, rfl⟩ | ⟨-, place, rfl⟩ := optimizePath_none_cases h
  · exact Expr.annotated_at?.mpr Expr.annotated_contextItem
  · rw [hsingle, AnnotatedChain] at hflat
    exact hflat.1
  · exact annotated_relativePath hflat
  · exact Expr.annotated_at?.mpr Expr.annotated_empty

end

/-! ### Maps -/

theorem contextItem_offers {e : Expr} (h : e.isContextItem = true) : K.Refines (e.Offers K) := by
  obtain ⟨form, τ, l⟩ := e
  cases form <;> simp [Expr.isContextItem] at h
  rintro t ⟨σ, hσ, rfl⟩
  simp only [Expr.Infers, Form.Infers] at hσ
  rcases hσ with rfl | ⟨u, hu, rfl⟩
  · exact .inl rfl
  · exact hu

theorem dropContextItems_annotated : {operands operands' : List Expr} → {K : Knowledge} →
    (dropContextItems operands).Gives operands' → AnnotatedChain Γ K operands →
    AnnotatedChain Γ K operands'
  | [], _, _, h, hes | [_], _, _, h, hes => by
    unfold dropContextItems at h
    exact Logged.gives_pure.mp h ▸ hes
  | first :: second :: rest, operands', K, h, hes => by
    obtain ⟨hfirst, -, h⟩ | rfl := dropContextItems_cons h
    · rw [AnnotatedChain] at hes
      exact dropContextItems_annotated h (hes.2.refine (contextItem_offers hfirst))
    · exact hes

theorem annotated_map {operands : List Expr} {l : Option Location}
    (hes : AnnotatedChain Γ K operands) :
    (⟨.map operands, .make (lastItemType operands) (chainOccurrence .one operands)
      (productSize operands), l⟩ : Expr).Annotated Γ K := by
  simp only [Expr.Annotated, Form.Annotated, Form.Infers]
  exact ⟨⟨operands.map Expr.type, hes.infers, mapType_eq operands⟩, hes⟩

theorem optimizeMap_annotated {scope : Scope} {operands : List Expr} {l : Option Location}
    {e : Expr} (h : (optimizeMap scope operands l).Gives e) (hes : AnnotatedChain Γ K operands) :
    e.Annotated Γ K := by
  obtain ⟨kept, hkept, h⟩ := optimizeMap_cases h
  have hes : AnnotatedChain Γ K kept := by
    obtain rfl | ⟨-, hdrop⟩ := hkept
    · exact hes
    · exact dropContextItems_annotated hdrop hes
  obtain ⟨operand, rfl, rfl⟩ | ⟨-, rfl⟩ | ⟨-, place, rfl⟩ := h
  · rw [AnnotatedChain] at hes
    exact Expr.annotated_at?.mpr hes.1
  · exact annotated_map hes
  · exact Expr.annotated_at?.mpr Expr.annotated_empty

end TreeQuery
