import TreeQuery.Proofs.Termination.Weight
/-!
# The weight of predicates

The rules for predicates, for filters and steps and for the truth of filters leave no more than
there was; what takes the place of an expression of which only the truth counts is lighter
(`simplerTruth_lighter`).
-/

namespace TreeQuery

section

variable {opt : Optimizer} {scope : Scope} {host : Host} {t : StaticType} {e e' : Expr}
    {l : Option Location}

/-! ### One predicate -/

theorem optimizePositionTest_weight (h : (optimizePositionTest e).Gives e') :
    e'.weight ≤ e.weight := by
  have he := e.weight_pos
  obtain rfl | ⟨-, -, -, -, place, -, ⟨test, -, rfl⟩ | ⟨-, rfl⟩⟩ := optimizePositionTest_cases h
  · exact Nat.le_refl _
  · rwa [Expr.weight_at?, Expr.weight_ofPositionTest]
  · rwa [Expr.weight_at?, Expr.call, Expr.weight_of]

theorem unwrapMap_weight (h : (unwrapMap scope host t e).Gives e') : e'.weight ≤ e.weight := by
  obtain ⟨form, τ, l⟩ := e
  obtain rfl | ⟨first, second, rest, hform, -, -, h⟩ := unwrapMap_cases h
  · exact Nat.le_refl _
  · subst hform
    simp only [Expr.weight, Form.weight, weightAll]
    obtain ⟨-, rfl⟩ | h := h
    · omega
    · have hmap := optimizeMap_weight h
      simp only [weightAll] at hmap
      omega

theorem unwrapPath_weight (h : (unwrapPath scope host t e).Gives e') : e'.weight ≤ e.weight := by
  obtain ⟨form, τ, l⟩ := e
  obtain rfl | ⟨first, steps, hform, -, -, h⟩ := unwrapPath_cases h
  · exact Nat.le_refl _
  · subst hform
    simp only [Expr.weight, Form.weight]
    obtain rfl | h := h
    · simp only [weightAll]
      omega
    · have hpath := optimizePath_none_weight h
      omega

theorem selfStep?_weight {test : NodeTest} {inner : List Expr}
    (h : selfStep? e = some (test, inner)) : weightAll 4 inner ≤ e.weight := by
  obtain ⟨form, τ, l⟩ := e
  obtain hform | ⟨τ', l', hform⟩ := selfStep?_cases h
  · subst hform
    simp only [Expr.weight, Form.weight]
    omega
  · subst hform
    simp only [Expr.weight, Form.weight, weightAll]
    omega

/-! ### The canonical list -/

theorem PredicateList.add_weight {list list' : PredicateList} (h : (list.add e).Gives list') :
    weightAll 4 list'.kept ≤ weightAll 4 list.kept + e.weight + 4 := by
  obtain ⟨-, ⟨hkept, -⟩ | hkept⟩ := PredicateList.add_cases h
  · rw [hkept]
    omega
  · simp only [hkept, weightAll_append, weightAll]
    omega

theorem constantPredicate_weight (h : constantPredicate e = .ok e') : e'.weight ≤ e.weight := by
  have he := e.weight_pos
  obtain rfl | ⟨x, -, rfl⟩ | ⟨b, -, -, rfl⟩ := constantPredicate_cases h
  · exact Nat.le_refl _
  · rwa [Expr.weight_at?, Expr.weight_ofPositionTest]
  · rwa [Expr.weight_at?, Expr.weight_ofBool]

theorem resolveSingleton_weight (host : Host) (e : Expr) :
    (resolveSingleton host e).weight ≤ e.weight := by
  have he := e.weight_pos
  obtain heq | ⟨w, -, -, heq⟩ := resolveSingleton_cases host e
  · exact Nat.le_of_eq (congrArg Expr.weight heq)
  · rwa [heq, Expr.weight_at?, Expr.weight_ofBool]

theorem splittable?_weight {operands : List Expr} (h : splittable? e = some operands) :
    e.weight = 1 + weightAll 6 operands := by
  obtain ⟨form, τ, l⟩ := e
  obtain ⟨hform, -⟩ := splittable?_cases h
  subst hform
  rw [Expr.weight, Form.weight]

theorem mergeFrom_weight : {es : List Expr} → {last : Expr} → {result : Option (List Expr)} →
    (mergeFrom last es).Gives result → ∀ merged, result = some merged →
    weightAll 4 merged ≤ weightAll 4 (last :: es)
  | [], last, result, h, merged, hmerged => by
    obtain rfl := Logged.gives_pure.mp h
    exact Option.some.inj hmerged ▸ Nat.le_refl _
  | e :: es, last, result, h, merged, hmerged => by
    have hlast := last.weight_pos
    unfold mergeFrom at h
    split at h
    · split at h
      · next u _ =>
        simp only [Logged.gives_bind, gives_remark, true_and] at h
        obtain ⟨-, h⟩ := h
        have := mergeFrom_weight h merged hmerged
        simp only [weightAll, Expr.weight_at?, Expr.weight_of, Form.weight] at this ⊢
        omega
      · simp only [Logged.gives_bind, gives_remark, Logged.gives_pure] at h
        obtain ⟨-, -, rfl⟩ := h
        cases hmerged
    · simp only [Logged.gives_bind, Logged.gives_pure] at h
      obtain ⟨rest, hrest, rfl⟩ := h
      obtain ⟨rest, rfl, rfl⟩ := Option.map_eq_some_iff.mp hmerged
      have := mergeFrom_weight hrest rest rfl
      simp only [weightAll] at this ⊢
      omega

theorem mergeWindows_weight {es : List Expr} {result : Option (List Expr)}
    (h : (mergeWindows es).Gives result) :
    ∀ merged, result = some merged → weightAll 4 merged ≤ weightAll 4 es := by
  cases es with
  | nil =>
    rintro merged rfl
    exact Option.some.inj (Logged.gives_pure.mp h) ▸ Nat.le_refl _
  | cons e es => exact mergeFrom_weight h

section

variable (hlight : opt.Lightens)

include hlight

theorem inlineRoot_weight (h : (inlineRoot opt scope host e).Gives e') : e'.weight ≤ e.weight := by
  obtain rfl | ⟨⟨form, τ, l⟩, v, rfl, hliteral, h⟩ := inlineRoot_cases h
  · exact Nat.le_refl _
  · subst hliteral
    have hvalue : (⟨.literal [v], τ, l⟩ : Expr).weight = 1 := by
      simp only [Expr.weight, Form.weight]
    exact Nat.le_trans (hlight.compile h) (Nat.le_of_eq (Expr.weight_replaceContext hvalue e))

theorem finishPredicate_weight {old : Expr} {result : Host × List Expr}
    (h : (finishPredicate opt scope t host old e).Gives result) :
    weightAll 4 result.2 ≤ e.weight + 4 := by
  obtain ⟨unwrapped, inlined, place, hunwrapped, hinlined, rfl⟩ := finishPredicate_cases h
  have hpath := unwrapPath_weight hunwrapped
  have hroot := inlineRoot_weight hlight hinlined
  simp only [weightAll, Expr.weight_at?]
  omega

theorem simplifyPredicate_weight {positional : Bool} {result : Host × List Expr}
    (h : (simplifyPredicate opt scope t positional host e).Gives result) :
    weightAll 4 result.2 ≤ e.weight + 4 := by
  obtain ⟨-, -, rfl⟩ | ⟨test, changed, htest, hchanged, h⟩ := simplifyPredicate_cases h
  · exact Nat.zero_le _
  have hweight : changed.weight ≤ e.weight :=
    Nat.le_trans (unwrapMap_weight hchanged) (optimizePositionTest_weight htest)
  obtain ⟨axis, own, self, both, inner, -, -, -, hself, -, rfl⟩ | ⟨self, -, -, -, rfl⟩ | h := h
  · have := selfStep?_weight hself
    dsimp only
    omega
  · exact Nat.zero_le _
  · have := finishPredicate_weight hlight h
    omega

theorem simplifyPredicates_weight {positional : Bool} :
    {es : List Expr} → {host : Host} → {result : Host × List Expr} →
    (simplifyPredicates opt scope t positional host es).Gives result →
    weightAll 4 result.2 ≤ weightAll 4 es
  | [], host, result, h => Logged.gives_pure.mp h ▸ Nat.le_refl _
  | e :: es, host, result, h => by
    simp only [simplifyPredicates, Logged.gives_bind, Logged.gives_pure] at h
    obtain ⟨⟨host₁, simplified⟩, h₁, ⟨host₂, rest⟩, h₂, rfl⟩ := h
    have hfirst := simplifyPredicate_weight hlight h₁
    have hrest := simplifyPredicates_weight h₂
    simp only [weightAll_append, weightAll]
    simp only at hfirst hrest
    omega

theorem operandPredicate_weight (h : (operandPredicate opt scope l e).Gives e') :
    e'.weight ≤ e.weight + 2 := by
  unfold operandPredicate at h
  rw [Logged.gives_ite] at h
  obtain ⟨-, h⟩ | ⟨-, h⟩ := h
  · have hcall := optimizeCall_weight hlight h
    simp only [Builtin.weight, weightAll] at hcall
    omega
  · obtain rfl := Logged.gives_pure.mp h
    omega

theorem splitOperands_weight : {es : List Expr} → {list : PredicateList} →
    {result : PredicateList × Expr} →
    (splitOperands opt scope l list es).Gives result →
    weightAll 4 result.1.kept + result.2.weight ≤ weightAll 4 list.kept + (1 + weightAll 6 es)
  | [], list, result, h => by
    obtain rfl := Logged.gives_pure.mp h
    simp only [Expr.weight_at?, Expr.weight_ofBool]
    omega
  | [e], list, result, h => by
    simp only [splitOperands, Logged.gives_bind, Logged.gives_pure] at h
    obtain ⟨e', he', rfl⟩ := h
    have := operandPredicate_weight hlight he'
    simp only [weightAll]
    omega
  | e :: e₂ :: es, list, result, h => by
    simp only [splitOperands, Logged.gives_bind] at h
    obtain ⟨e', he', list', hlist', h⟩ := h
    have hfirst := operandPredicate_weight hlight he'
    have hadd := PredicateList.add_weight hlist'
    have hrest := splitOperands_weight h
    rw [weightAll]
    omega

theorem canonicalPredicate_weight {list : PredicateList} {result : PredicateList × Expr}
    (h : (canonicalPredicate opt scope list e).Gives result) :
    weightAll 4 result.1.kept + result.2.weight ≤ weightAll 4 list.kept + e.weight := by
  obtain ⟨operands, hsplit, h⟩ | ⟨e', he', rfl⟩ := canonicalPredicate_cases h
  · rw [splittable?_weight hsplit]
    exact splitOperands_weight hlight h
  · have := constantPredicate_weight he'
    dsimp only
    omega

theorem canonicalList_weight : {es : List Expr} → {list : PredicateList} →
    {result : Option (List Expr)} →
    (canonicalList opt scope host list es).Gives result →
    ∀ kept, result = some kept → weightAll 4 kept ≤ weightAll 4 list.kept + weightAll 4 es
  | [], list, result, h, kept, hkept => by
    obtain rfl := Logged.gives_pure.mp h
    exact Option.some.inj hkept ▸ Nat.le_add_right _ _
  | e :: es, list, result, h, kept, hkept => by
    simp only [canonicalList, Logged.gives_ite, Logged.gives_bind, gives_remark,
      Logged.gives_pure] at h
    obtain ⟨e₁, h₁, ⟨list₂, e₂⟩, h₂, ⟨-, -, -, rfl⟩ | ⟨-, list₃, h₃, h⟩⟩ := h
    · cases hkept
    · have hsimplified := hlight.simplify h₁
      have hcanonical := canonicalPredicate_weight hlight h₂
      have hresolved := resolveSingleton_weight host e₂
      have hadd := PredicateList.add_weight h₃
      have hrest := canonicalList_weight h kept hkept
      dsimp only at hcanonical hadd
      rw [weightAll]
      omega

/-! ### Filters and steps -/

theorem optimizePredicates_weight {es : List Expr} {filtered : Filtered}
    (h : (optimizePredicates opt scope host es).Gives filtered) :
    weightAll 4 filtered.predicates ≤ weightAll 4 es := by
  obtain rfl | ⟨host', simplified, hsimplify, h⟩ := optimizePredicates_cases h
  · exact Nat.le_refl _
  have hfirst := simplifyPredicates_weight hlight hsimplify
  obtain ⟨-, rfl⟩ | ⟨kept, merged, hcanonical, hmerge, rfl⟩ := h
  · exact Nat.zero_le _
  · have hlist := canonicalList_weight hlight hcanonical kept rfl
    have hmerged := mergeWindows_weight hmerge merged rfl
    dsimp only [weightAll] at hfirst hlist ⊢
    omega

theorem optimizeFilter_weight {root : Expr} {predicates : List Expr}
    (h : (optimizeFilter opt scope root predicates l).Gives e) :
    e.weight ≤ 1 + root.weight + weightAll 4 predicates := by
  obtain ⟨filtered, hfiltered, h⟩ := optimizeFilter_cases h
  have hkept := optimizePredicates_weight hlight hfiltered
  obtain ⟨t, -, ⟨-, rfl⟩ | rfl⟩ | ⟨-, place, rfl⟩ := h
  · omega
  · simp only [Expr.weight, Form.weight]
    omega
  · rw [Expr.weight_at?, Expr.weight_empty]
    omega

theorem optimizeStep_weight {axis : Axis} {test : NodeTest} {predicates : List Expr}
    (h : (optimizeStep opt scope axis test predicates l).Gives e) :
    e.weight ≤ 1 + weightAll 4 predicates := by
  obtain ⟨filtered, hfiltered, h⟩ := optimizeStep_cases h
  have hkept := optimizePredicates_weight hlight hfiltered
  obtain ⟨axis', test', t, -, rfl⟩ | ⟨-, place, rfl⟩ := h
  · rw [Expr.weight, Form.weight]
    omega
  · rw [Expr.weight_at?, Expr.weight_empty]
    omega

/-! ### The truth of filters -/

variable {root : Expr} {predicates : List Expr}

theorem remainingRoot_weight (h : (remainingRoot opt scope root predicates).Gives e) :
    e.weight ≤ 1 + root.weight + weightAll 4 predicates.dropLast := by
  obtain ⟨-, rfl⟩ | ⟨-, h⟩ := remainingRoot_cases h
  · omega
  · exact optimizeFilter_weight hlight h

omit hlight in
theorem relativeSteps?_weight {steps : List Expr} (h : relativeSteps? e = some steps) :
    weightAll 1 steps ≤ e.weight + 1 := by
  obtain ⟨form, τ, l⟩ := e
  obtain ⟨-, rfl⟩ | hform | ⟨first, hform, -⟩ := relativeSteps?_cases h
  · simp only [weightAll]
    omega
  · subst hform
    simp only [Expr.weight, Form.weight]
    omega
  · subst hform
    simp only [Expr.weight, Form.weight]
    omega

theorem extendRoot_weight {path : Expr}
    (h : (extendRoot opt scope root predicates e).Gives (some path)) :
    path.weight ≤ root.weight + weightAll 4 predicates.dropLast + e.weight + 3 := by
  obtain ⟨head, hhead, h⟩ := extendRoot_cases h
  have hhead := remainingRoot_weight hlight hhead
  obtain ⟨-, rfl⟩ | ⟨steps, hsteps, hpath⟩ := h
  · omega
  · have hsteps := relativeSteps?_weight hsteps
    have := optimizePath_some_weight hpath
    omega

theorem liftPredicate_weight {new : Expr}
    (h : (liftPredicate opt scope root predicates e).Gives (some new)) :
    new.weight ≤ root.weight + weightAll 4 predicates.dropLast + e.weight + 4 := by
  obtain hpath | ⟨-, head, hhead, hmap⟩ := liftPredicate_cases h
  · have := extendRoot_weight hlight hpath
    omega
  · have hhead := remainingRoot_weight hlight hhead
    have := optimizeMap_weight hmap
    simp only [weightAll] at this
    omega

theorem simplifyFilter_lighter {new : Expr}
    (h : (simplifyFilter opt scope root predicates).Gives (some new)) :
    new.weight < 1 + root.weight + weightAll 4 predicates := by
  obtain ⟨⟨form, τ, place⟩, hlast, -, -, h⟩ := simplifyFilter_cases h
  have hweight := weightAll_getLast? 4 hlast
  obtain h | ⟨op, left, right, path, hform, -, hpath, h⟩ |
    ⟨input, query, path, hform, -, hpath, h⟩ := h
  · have := liftPredicate_weight hlight h
    omega
  · subst hform
    have hpath := extendRoot_weight hlight hpath
    have hcomparison := optimizeComparison_weight h
    simp only [Expr.weight, Form.weight] at hweight
    omega
  · subst hform
    have hpath := extendRoot_weight hlight hpath
    have hsearch := optimizeSearch_weight h
    simp only [Expr.weight, Form.weight] at hweight
    omega

/-! ### Simplification -/

theorem simplerTruth_lighter {mode : TruthMode} {new : Expr}
    (h : (simplerTruth opt mode scope e).Gives (some new)) : new.weight < e.weight := by
  obtain ⟨form, τ, l⟩ := e
  have arg {f : Builtin} {arg : Expr} (hform : form = .call f [arg]) :
      arg.weight < (⟨form, τ, l⟩ : Expr).weight := by
    have := f.weight_pos
    subst hform
    simp only [Expr.weight, Form.weight, weightAll]
    omega
  obtain ⟨hform, -⟩ | ⟨hform | ⟨-, hform⟩, -⟩ | ⟨-, only, hform, hcall⟩ |
    ⟨root, predicates, hform, h⟩ := simplerTruth_cases h
  · exact arg hform
  · exact arg hform
  · exact arg hform
  · obtain rfl : form = .call .count [only] := hform
    have := optimizeCall_weight hlight hcall
    simp only [Expr.weight, Form.weight, Builtin.weight] at this ⊢
    omega
  · obtain rfl : form = .filter root predicates := hform
    rw [Expr.weight, Form.weight]
    exact simplifyFilter_lighter hlight h

theorem simplify_weight {mode : TruthMode} (h : (simplify opt mode scope e).Gives e') :
    e'.weight ≤ e.weight := by
  obtain rfl | ⟨new, place, hnew, h⟩ := simplify_cases h
  · exact Nat.le_refl _
  · have hlighter := simplerTruth_lighter hlight hnew
    have hrest := hlight.simplify h
    rw [Expr.weight_at?] at hrest
    omega

end

end

end TreeQuery
