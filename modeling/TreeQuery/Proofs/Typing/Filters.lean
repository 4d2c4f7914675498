import TreeQuery.Proofs.Typing.Predicates
/-!
# The rules for filters keep annotations right

What is left of a filter offers all that its root offers, so that a predicate that leaves the
brackets still finds what it was annotated for.
-/

namespace TreeQuery

@[simp] theorem make_item (i : ItemType) (o : Occurrence) (size : Option Nat) :
    (StaticType.make i o size).item = i := by
  cases size <;> rfl

theorem filterType_item (t : StaticType) (predicates : List Expr) :
    (filterType t predicates).item = t.item := by
  simp only [filterType, filteredType]
  split
  · rfl
  · simp

theorem filterType_of_filteredType {t τ : StaticType} {predicates : List Expr}
    (h : filteredType t predicates = some τ) : filterType t predicates = τ := by
  simp [filterType, h]

theorem Occurrence.union_zero_ne_zero {o : Occurrence} (h : o ≠ .zero) : o.union .zero ≠ .zero := by
  cases o <;> first | exact absurd rfl h | decide

theorem isZero_of_filteredType {t τ : StaticType} {predicates : List Expr}
    (h : filteredType t predicates = some τ) (ht : t.isZero = false) : τ.isZero = false := by
  have hunion : (t.occurrence.union .zero == .zero) = false :=
    beq_false_of_ne (Occurrence.union_zero_ne_zero (by simpa [StaticType.isZero] using ht))
  simp only [filteredType] at h
  generalize predicates.foldl (fun most e => limitBy e most) t.size = most at h
  generalize (t.size.isSome && predicates.all limitsExactly) = exact at h
  obtain ⟨hmost, h⟩ := Option.ite_none_left_eq_some.mp h
  obtain rfl := Option.some.inj h
  cases exact with
  | false => rcases most with _ | _ | _ | n <;> first | rfl | exact hunion
  | true => rcases most with _ | _ | _ | n <;> first | rfl | exact hunion | exact absurd rfl hmost

section

variable {opt : Optimizer} {scope : Scope} {K : Knowledge} {l : Option Location} {e : Expr}

/-! ### Filters and steps -/

theorem annotated_filter {Γ : List Variable} {root : Expr} {predicates : List Expr} {t : StaticType}
    (hroot : root.Annotated Γ K) (hpredicates : AnnotatedAll Γ (root.Offers K) predicates)
    (ht : filteredType root.type predicates = some t) :
    (⟨.filter root predicates, t, l⟩ : Expr).Annotated Γ K := by
  simp only [Expr.Annotated, Form.Annotated, Form.Infers]
  exact ⟨⟨root.type, hroot.infers, (filterType_of_filteredType ht).symm⟩, hroot, hpredicates⟩

theorem filter_offers {root : Expr} {predicates : List Expr} {t : StaticType} {u : ItemType}
    (h : root.Offers K u) : Expr.Offers K ⟨.filter root predicates, t, l⟩ u := by
  obtain ⟨σ, hσ, rfl⟩ := h
  exact ⟨filterType σ predicates,
    by simpa only [Expr.Infers, Form.Infers] using ⟨σ, hσ, rfl⟩, filterType_item σ predicates⟩

theorem optimizeFilter_annotated (hopt : opt.Sound) {root : Expr} {predicates : List Expr}
    (h : (optimizeFilter opt scope root predicates l).Gives e)
    (hroot : root.Annotated scope.visible K)
    (hpredicates : AnnotatedAll scope.visible (root.Offers K) predicates) :
    e.Annotated scope.visible K ∧ ∀ u, root.Offers K u → e.Offers K u := by
  obtain ⟨⟨host, kept, t⟩, hfiltered, h⟩ := optimizeFilter_cases h
  obtain ⟨hnarrows, hkept, htype⟩ :=
    optimizePredicates_annotated (K := K) hopt hfiltered hroot hpredicates
  cases host with
  | step _ _ => cases hnarrows
  | root r =>
    obtain rfl : root = r := hnarrows
    obtain ⟨t, rfl, ⟨-, rfl⟩ | rfl⟩ | ⟨-, place, rfl⟩ := h
    · exact ⟨hroot, fun _ => id⟩
    · exact ⟨annotated_filter hroot hkept (htype t rfl), fun _ => filter_offers⟩
    · exact ⟨Expr.annotated_at?.mpr Expr.annotated_empty, fun _ _ => Expr.offers_empty⟩

theorem optimizeStep_annotated (hopt : opt.Sound) {axis : Axis} {test : NodeTest}
    {predicates : List Expr} (h : (optimizeStep opt scope axis test predicates l).Gives e)
    (hpredicates : AnnotatedAll scope.visible (StepOffers axis test) predicates) :
    e.Annotated scope.visible K := by
  simp only [optimizeStep, Logged.gives_bind] at h
  obtain ⟨⟨host, kept, t⟩, hfiltered, h⟩ := h
  obtain ⟨hnarrows, hkept, htype⟩ :=
    optimizePredicates_annotated (K := K) hopt hfiltered trivial hpredicates
  cases host with
  | root _ => cases hnarrows
  | step axis' test' =>
    obtain ⟨rfl, -⟩ := hnarrows
    obtain ⟨t, rfl, rfl⟩ | ⟨-, place, rfl⟩ := finishStep_cases h
    · simp only [Expr.Annotated, Form.Annotated, Form.Infers]
      exact ⟨(filterType_of_filteredType (htype t rfl)).symm, hkept⟩
    · exact Expr.annotated_at?.mpr Expr.annotated_empty

theorem optimizeSearch_annotated {Γ : List Variable} {input query : Expr}
    (h : (optimizeSearch scope input query l).Gives e) (hinput : input.Annotated Γ K)
    (hquery : query.Annotated Γ K) : e.Annotated Γ K := by
  obtain rfl | ⟨-, rfl⟩ := optimizeSearch_cases h
  · simp only [Expr.Annotated, Form.Annotated, Form.Infers]
    exact ⟨trivial, hinput, hquery⟩
  · exact Expr.annotated_at?.mpr Expr.annotated_ofBool

/-! ### The truth of a filter -/

section

variable {root : Expr} {predicates : List Expr}

theorem remainingRoot_annotated (hopt : opt.Sound)
    (h : (remainingRoot opt scope root predicates).Gives e) (hroot : root.Annotated scope.visible K)
    (hpredicates : AnnotatedAll scope.visible (root.Offers K) predicates) :
    e.Annotated scope.visible K ∧ ∀ u, root.Offers K u → e.Offers K u := by
  obtain ⟨-, rfl⟩ | ⟨-, h⟩ := remainingRoot_cases h
  · exact ⟨hroot, fun _ => id⟩
  · exact optimizeFilter_annotated hopt h hroot hpredicates.dropLast

/-- The steps of a path that starts from the item in focus fit behind whatever offers as much. -/
theorem relativeSteps?_annotated {Γ : List Variable} {steps : List Expr}
    (h : relativeSteps? e = some steps) (he : e.Annotated Γ K) : AnnotatedChain Γ K steps := by
  obtain ⟨form, τ, place⟩ := e
  obtain ⟨-, rfl⟩ | hform | ⟨first, hform, hfirst⟩ := relativeSteps?_cases h
  · simpa only [AnnotatedChain, and_true] using he
  · subst hform
    simp only [Expr.Annotated, Form.Annotated] at he
    exact he.2
  · subst hform
    simp only [Expr.Annotated, Form.Annotated] at he
    exact he.2.2.refine (contextItem_offers hfirst)

theorem extendRoot_annotated (hopt : opt.Sound) {path : Expr}
    (h : (extendRoot opt scope root predicates e).Gives (some path))
    (hroot : root.Annotated scope.visible K)
    (hpredicates : AnnotatedAll scope.visible (root.Offers K) predicates)
    (he : e.Annotated scope.visible (root.Offers K)) : path.Annotated scope.visible K := by
  obtain ⟨head, hhead, h⟩ := extendRoot_cases h
  obtain ⟨hann, hoffers⟩ := remainingRoot_annotated hopt hhead hroot hpredicates
  obtain ⟨-, rfl⟩ | ⟨steps, hsteps, hpath⟩ := h
  · exact hann
  · exact optimizePath_some_annotated hpath hann
      ((relativeSteps?_annotated hsteps he).refine (.of_forall hoffers))

theorem liftPredicate_annotated (hopt : opt.Sound) {new : Expr}
    (h : (liftPredicate opt scope root predicates e).Gives (some new))
    (hroot : root.Annotated scope.visible K)
    (hpredicates : AnnotatedAll scope.visible (root.Offers K) predicates)
    (he : e.Annotated scope.visible (root.Offers K)) : new.Annotated scope.visible K := by
  obtain hpath | ⟨-, head, hhead, hmap⟩ := liftPredicate_cases h
  · exact extendRoot_annotated hopt hpath hroot hpredicates he
  · obtain ⟨hann, hoffers⟩ := remainingRoot_annotated hopt hhead hroot hpredicates
    refine optimizeMap_annotated hmap ?_
    simp only [AnnotatedChain, and_true]
    exact ⟨hann, he.mono (.of_forall hoffers)⟩

theorem simplifyFilter_annotated (hopt : opt.Sound) {new : Expr}
    (h : (simplifyFilter opt scope root predicates).Gives (some new))
    (hroot : root.Annotated scope.visible K)
    (hpredicates : AnnotatedAll scope.visible (root.Offers K) predicates) :
    new.Annotated scope.visible K := by
  obtain ⟨⟨form, τ, place⟩, hlast, -, -, h⟩ := simplifyFilter_cases h
  have hann := annotatedAll_iff.mp hpredicates _ (List.mem_of_getLast? hlast)
  obtain h | ⟨op, left, right, path, hform, hcontext, hpath, h⟩ |
    ⟨input, query, path, hform, hcontext, hpath, h⟩ := h
  · exact liftPredicate_annotated hopt h hroot hpredicates hann
  · subst hform
    simp only [Expr.Annotated, Form.Annotated] at hann
    exact optimizeComparison_annotated h
      (extendRoot_annotated hopt hpath hroot hpredicates hann.2.1)
      (hann.2.2.refocus (.inr hcontext))
  · subst hform
    simp only [Expr.Annotated, Form.Annotated] at hann
    exact optimizeSearch_annotated h (extendRoot_annotated hopt hpath hroot hpredicates hann.2.1)
      (hann.2.2.refocus (.inr hcontext))

end

end

end TreeQuery
