import TreeQuery.Proofs.Compile.PredicateCases
import TreeQuery.Proofs.Typing.Chains
import TreeQuery.Proofs.Typing.Checks
import TreeQuery.Proofs.Typing.Sameness
/-!
# The rules for predicates keep annotations right

Predicates are annotated for what their host offers. A rule may narrow the node test of a step,
which offers more then; a predicate that loses its own root finds the items of the host in focus, of
which as much is known.
-/

namespace TreeQuery

/-! ### Hosts -/

namespace Host

def offers (K : Knowledge) : Host → Knowledge
  | .root e => e.Offers K
  | .step axis test => StepOffers axis test

def Annotated (Γ : List Variable) (K : Knowledge) : Host → Prop
  | .root e => e.Annotated Γ K
  | .step .. => True

variable {Γ : List Variable} {K : Knowledge} {h h' : Host}

theorem Narrows.annotated (hn : h.Narrows h') (ha : h.Annotated Γ K) : h'.Annotated Γ K := by
  cases h <;> cases h' <;> simp only [Narrows] at hn
  · exact hn ▸ ha
  · trivial

theorem stepOffers_stepType (axis : Axis) (test : NodeTest) :
    StepOffers axis test (stepType axis test).item := by
  intro f m n hn hp
  have hkind (k : NodeKind) (h : test.kind = some k) : f.kind n = k := by
    simp only [NodeTest.passes, h, Bool.and_eq_true, beq_iff_eq] at hp
    exact hp.1
  simp only [stepType, StaticType.of]
  split
  · simpa [ItemType.admitsKind] using (Forest.kind_of_mem_attributes hn).symm
  · unfold NodeTest.itemType
    split
    · next k h => simp [ItemType.admitsKind, hkind k h]
    · rfl

theorem Annotated.offers (ha : h.Annotated Γ K) : h.offers K h.type.item := by
  cases h with
  | root e => exact Expr.Annotated.offers ha
  | step axis test => exact stepOffers_stepType axis test

/-- Where the items of a host are in focus, no more is known of them than the host offers. -/
theorem Annotated.refines_known (ha : h.Annotated Γ K) (scope : Scope) :
    (h.offers K).Refines (scope.withFocus (some h.type.item)).known := by
  rintro t ht
  obtain rfl : h.type.item = t := Option.some.inj ht
  exact .of_mem ha.offers

theorem Narrows.offers (hn : h.Narrows h') : (h'.offers K).Refines (h.offers K) := by
  cases h <;> cases h' <;> simp only [Narrows] at hn
  · exact hn ▸ .refl _
  · obtain ⟨rfl, hpass⟩ := hn
    exact .of_forall fun t ht f m n hn hp => ht f m n hn (hpass f n hp)

theorem givesItem_offers {t : StaticType} {e : Expr} (he : h.givesItem t e = true) :
    (h.offers K).Refines (e.Offers (h.offers K)) := by
  simp only [givesItem, Bool.or_eq_true, Bool.and_eq_true] at he
  rcases he with hcontext | ⟨⟨hroot, hsimple⟩, -⟩
  · exact contextItem_offers hcontext
  · cases h with
    | step _ _ => simp [isRoot] at hroot
    | root r =>
      -- the expression is the same as the root, in every focus
      simp only [Expr.isSimple, Bool.and_eq_true, Bool.not_eq_true'] at hsimple
      have hsame : r.Offers K = e.Offers K := Expr.Offers.same hroot
      simp only [Host.offers, hsame]
      exact .offers (.inr hsimple.1.1)

end Host

theorem StepOffers.of_self {axis : Axis} {test test' : NodeTest}
    (h : ∀ f n, test'.passes f n = true → test.passes f n = true) :
    Knowledge.Refines (StepOffers axis test') (StepOffers .self test) :=
  .of_forall fun _ ht f _ n _ hp => ht f n n (List.mem_singleton_self n) (h f n hp)

/-! ### One predicate -/

section

variable {opt : Optimizer} {scope : Scope} {host : Host} {t : StaticType}
    {K : Knowledge} {e e' : Expr}

theorem optimizePositionTest_annotated {Γ : List Variable} (h : (optimizePositionTest e).Gives e')
    (he : e.Annotated Γ K) : e'.Annotated Γ K := by
  obtain rfl | ⟨-, -, -, -, place, -, ⟨test, -, rfl⟩ | ⟨-, rfl⟩⟩ := optimizePositionTest_cases h
  · exact he
  · exact Expr.annotated_at?.mpr Expr.annotated_ofPositionTest
  · exact Expr.annotated_at?.mpr (Expr.annotated_call trivial)

theorem unwrapMap_annotated (h : (unwrapMap scope host t e).Gives e')
    (he : e.Annotated scope.visible (host.offers K)) :
    e'.Annotated scope.visible (host.offers K) := by
  obtain ⟨form, τ, l⟩ := e
  obtain rfl | ⟨first, second, rest, hform, hitem, -, h⟩ := unwrapMap_cases h
  · exact he
  · subst hform
    simp only [Expr.Annotated, Form.Annotated] at he
    have hchain := he.2
    rw [AnnotatedChain] at hchain
    have hrest := hchain.2.refine (host.givesItem_offers hitem)
    obtain ⟨rfl, rfl⟩ | h := h
    · rw [AnnotatedChain] at hrest
      exact hrest.1
    · exact optimizeMap_annotated h hrest

theorem unwrapPath_annotated (h : (unwrapPath scope host t e).Gives e')
    (he : e.Annotated scope.visible (host.offers K)) :
    e'.Annotated scope.visible (host.offers K) := by
  obtain ⟨form, τ, l⟩ := e
  obtain rfl | ⟨first, steps, hform, hitem, -, h⟩ := unwrapPath_cases h
  · exact he
  · subst hform
    simp only [Expr.Annotated, Form.Annotated] at he
    have hsteps := he.2.2.refine (host.givesItem_offers hitem)
    obtain rfl | h := h
    · rw [AnnotatedChain] at hsteps
      exact hsteps.1
    · exact optimizePath_none_annotated h hsteps

theorem inlineRoot_annotated (hopt : opt.Sound) (h : (inlineRoot opt scope host e).Gives e')
    (hhost : host.Annotated scope.visible K) (hscope : (host.offers K).Refines scope.known)
    (he : e.Annotated scope.visible (host.offers K)) :
    e'.Annotated scope.visible (host.offers K) := by
  obtain rfl | ⟨root, v, rfl, -, h⟩ := inlineRoot_cases h
  · exact he
  · exact (hopt.compile (Expr.Built.replaceContext (Expr.Annotated.built hhost) he.built) h).mono
      hscope

theorem finishPredicate_annotated (hopt : opt.Sound) {old : Expr} {result : Host × List Expr}
    (h : (finishPredicate opt scope t host old e).Gives result)
    (hhost : host.Annotated scope.visible K) (hscope : (host.offers K).Refines scope.known)
    (he : e.Annotated scope.visible (host.offers K)) :
    AnnotatedAll scope.visible (result.1.offers K) result.2 := by
  obtain ⟨unwrapped, inlined, place, hunwrapped, hinlined, rfl⟩ := finishPredicate_cases h
  have hlast := inlineRoot_annotated hopt hinlined hhost hscope (unwrapPath_annotated hunwrapped he)
  simpa only [AnnotatedAll, and_true] using Expr.annotated_at?.mpr hlast

theorem selfStep?_annotated {Γ : List Variable} {test : NodeTest} {inner : List Expr}
    (h : selfStep? e = some (test, inner)) (he : e.Annotated Γ K) :
    AnnotatedAll Γ (StepOffers .self test) inner := by
  obtain ⟨form, τ, l⟩ := e
  obtain hform | ⟨τ', l', hform⟩ := selfStep?_cases h
  · subst hform
    simp only [Expr.Annotated, Form.Annotated] at he
    exact he.2
  · subst hform
    simp only [Expr.Annotated, Form.Annotated, AnnotatedChain] at he
    exact he.2.1.2

theorem simplifyPredicate_annotated (hopt : opt.Sound) {positional : Bool}
    {result : Host × List Expr} (h : (simplifyPredicate opt scope t positional host e).Gives result)
    (hhost : host.Annotated scope.visible K) (hscope : (host.offers K).Refines scope.known)
    (he : e.Annotated scope.visible (host.offers K)) :
    AnnotatedAll scope.visible (result.1.offers K) result.2 := by
  obtain ⟨-, -, rfl⟩ | ⟨test, changed, htest, hchanged, h⟩ := simplifyPredicate_cases h
  · trivial
  have hchanged := unwrapMap_annotated hchanged (optimizePositionTest_annotated htest he)
  obtain ⟨axis, own, self, both, inner, -, -, rfl, hself, hboth, rfl⟩ |
    ⟨self, hself, -, -, rfl⟩ | h := h
  · exact (selfStep?_annotated hself hchanged).refine
      (StepOffers.of_self fun f n hp => (NodeTest.passes_of_intersect hboth hp).2)
  · trivial
  · exact finishPredicate_annotated hopt h hhost hscope hchanged

theorem simplifyPredicates_annotated (hopt : opt.Sound) {positional : Bool} :
    {es : List Expr} → {host : Host} →
    {result : Host × List Expr} → (simplifyPredicates opt scope t positional host es).Gives result →
    host.Annotated scope.visible K → (host.offers K).Refines scope.known →
    AnnotatedAll scope.visible (host.offers K) es →
    AnnotatedAll scope.visible (result.1.offers K) result.2
  | [], host, result, h, _, _, _ => by
    simp only [simplifyPredicates, Logged.gives_pure] at h
    exact h ▸ trivial
  | e :: es, host, result, h, hhost, hscope, hes => by
    rw [AnnotatedAll] at hes
    simp only [simplifyPredicates, Logged.gives_bind, Logged.gives_pure] at h
    obtain ⟨⟨host₁, simplified⟩, h₁, ⟨host₂, rest⟩, h₂, rfl⟩ := h
    have hnarrows : host.Narrows host₁ := simplifyPredicate_narrows h₁
    have hnarrows' : host₁.Narrows host₂ := simplifyPredicates_narrows h₂
    have hsimplified :=
      (simplifyPredicate_annotated hopt h₁ hhost hscope hes.1).refine hnarrows'.offers
    have hrest := simplifyPredicates_annotated hopt h₂ (hnarrows.annotated hhost)
      (hnarrows.offers.trans hscope) (AnnotatedAll.refine hnarrows.offers hes.2)
    rw [annotatedAll_iff] at hsimplified hrest ⊢
    intro e he
    exact (List.mem_append.mp he).elim (hsimplified e) (hrest e)

end

/-! ### The canonical list -/

section

variable {opt : Optimizer} {scope : Scope} {K : Knowledge} {e : Expr}

theorem PredicateList.add_annotated {Γ : List Variable} {l l' : PredicateList}
    (h : (l.add e).Gives l') (hl : AnnotatedAll Γ K l.kept) (he : e.Annotated Γ K) :
    AnnotatedAll Γ K l'.kept := by
  obtain ⟨-, ⟨hkept, -⟩ | hkept⟩ := PredicateList.add_cases h
  · exact hkept ▸ hl
  · rw [hkept, annotatedAll_iff]
    exact List.forall_mem_append.mpr ⟨annotatedAll_iff.mp hl, List.forall_mem_singleton.mpr he⟩

theorem operandPredicate_annotated (hopt : opt.Sound) {location : Option Location} {e' : Expr}
    (h : (operandPredicate opt scope location e).Gives e') (he : e.Annotated scope.visible K) :
    e'.Annotated scope.visible K := by
  unfold operandPredicate at h
  rw [Logged.gives_ite] at h
  rcases h with ⟨-, h⟩ | ⟨-, h⟩
  · exact optimizeCall_annotated hopt h (by simpa only [AnnotatedAll, and_true] using he)
  · exact Logged.gives_pure.mp h ▸ he

theorem splitOperands_annotated (hopt : opt.Sound) {location : Option Location} :
    {es : List Expr} → {l : PredicateList} →
    {result : PredicateList × Expr} → (splitOperands opt scope location l es).Gives result →
    AnnotatedAll scope.visible K l.kept → AnnotatedAll scope.visible K es →
    AnnotatedAll scope.visible K result.1.kept ∧ result.2.Annotated scope.visible K
  | [], l, result, h, hl, _ => by
    simp only [splitOperands, Logged.gives_pure] at h
    subst h
    exact ⟨hl, Expr.annotated_at?.mpr Expr.annotated_ofBool⟩
  | [e], l, result, h, hl, hes => by
    simp only [splitOperands, Logged.gives_bind, Logged.gives_pure] at h
    obtain ⟨e', he', rfl⟩ := h
    exact ⟨hl, operandPredicate_annotated hopt he'
      (annotatedAll_iff.mp hes e (List.mem_singleton_self e))⟩
  | e :: e₂ :: es, l, result, h, hl, hes => by
    rw [AnnotatedAll] at hes
    simp only [splitOperands, Logged.gives_bind] at h
    obtain ⟨e', he', l', hl', h⟩ := h
    exact splitOperands_annotated hopt h
      (PredicateList.add_annotated hl' hl (operandPredicate_annotated hopt he' hes.1)) hes.2

theorem constantPredicate_annotated {Γ : List Variable} {e' : Expr}
    (h : constantPredicate e = .ok e') (he : e.Annotated Γ K) : e'.Annotated Γ K := by
  obtain rfl | ⟨x, -, rfl⟩ | ⟨b, -, -, rfl⟩ := constantPredicate_cases h
  · exact he
  · exact Expr.annotated_at?.mpr Expr.annotated_ofPositionTest
  · exact Expr.annotated_at?.mpr Expr.annotated_ofBool

theorem splittable?_annotated {Γ : List Variable} {operands : List Expr}
    (h : splittable? e = some operands) (he : e.Annotated Γ K) : AnnotatedAll Γ K operands := by
  obtain ⟨form, τ, place⟩ := e
  obtain ⟨hform, -⟩ := splittable?_cases h
  subst hform
  simp only [Expr.Annotated, Form.Annotated] at he
  exact he.2

theorem canonicalPredicate_annotated (hopt : opt.Sound) {l : PredicateList}
    {result : PredicateList × Expr} (h : (canonicalPredicate opt scope l e).Gives result)
    (hl : AnnotatedAll scope.visible K l.kept) (he : e.Annotated scope.visible K) :
    AnnotatedAll scope.visible K result.1.kept ∧ result.2.Annotated scope.visible K := by
  obtain ⟨operands, hsplit, h⟩ | ⟨e', he', rfl⟩ := canonicalPredicate_cases h
  · exact splitOperands_annotated hopt h hl (splittable?_annotated hsplit he)
  · exact ⟨hl, constantPredicate_annotated he' he⟩

theorem resolveSingleton_annotated {Γ : List Variable} {host : Host} (he : e.Annotated Γ K) :
    (resolveSingleton host e).Annotated Γ K := by
  obtain heq | ⟨w, -, -, heq⟩ := resolveSingleton_cases host e
  · exact heq.symm ▸ he
  · exact heq.symm ▸ Expr.annotated_at?.mpr Expr.annotated_ofBool

theorem canonicalList_annotated (hopt : opt.Sound) {host : Host} :
    {es : List Expr} → {l : PredicateList} →
    {result : Option (List Expr)} → (canonicalList opt scope host l es).Gives result →
    AnnotatedAll scope.visible K l.kept → AnnotatedAll scope.visible K es →
    ∀ kept, result = some kept → AnnotatedAll scope.visible K kept
  | [], l, result, h, hl, _ => by
    simp only [canonicalList, Logged.gives_pure] at h
    rintro _ rfl
    exact Option.some.inj h ▸ hl
  | e :: es, l, result, h, hl, hes => by
    rw [AnnotatedAll] at hes
    simp only [canonicalList, Logged.gives_ite, Logged.gives_bind, gives_remark,
      Logged.gives_pure] at h
    obtain ⟨e₁, h₁, ⟨l₂, e₂⟩, h₂, ⟨-, -, -, rfl⟩ | ⟨-, l₃, h₃, h⟩⟩ := h
    · simp
    · obtain ⟨hl₂, he₂⟩ := canonicalPredicate_annotated hopt h₂ hl (hopt.simplify hes.1 h₁)
      exact canonicalList_annotated hopt h
        (PredicateList.add_annotated h₃ hl₂ (resolveSingleton_annotated he₂)) hes.2

theorem annotated_position {Γ : List Variable} {w : Window} {l : Option Location} :
    ((Expr.of (.position w)).at? l).Annotated Γ K := by
  have h : (Expr.ofPositionTest (.within w)).Annotated Γ K := Expr.annotated_ofPositionTest
  exact Expr.annotated_at?.mpr h

theorem mergeFrom_annotated {Γ : List Variable} :
    {es : List Expr} → {last : Expr} → {result : Option (List Expr)} →
    (mergeFrom last es).Gives result → last.Annotated Γ K → AnnotatedAll Γ K es →
    ∀ merged, result = some merged → AnnotatedAll Γ K merged
  | [], last, result, h, hlast, _ => by
    simp only [mergeFrom, Logged.gives_pure] at h
    rintro _ rfl
    obtain rfl := Option.some.inj h
    simpa only [AnnotatedAll, and_true] using hlast
  | e :: es, last, result, h, hlast, hes => by
    rw [AnnotatedAll] at hes
    unfold mergeFrom at h
    split at h
    · split at h
      · simp only [Logged.gives_bind, gives_remark] at h
        obtain ⟨-, -, h⟩ := h
        exact mergeFrom_annotated h annotated_position hes.2
      · simp only [Logged.gives_bind, gives_remark, Logged.gives_pure] at h
        obtain ⟨-, -, rfl⟩ := h
        simp
    · simp only [Logged.gives_bind, Logged.gives_pure] at h
      obtain ⟨rest, hrest, rfl⟩ := h
      intro merged hmerged
      obtain ⟨rest, rfl, rfl⟩ := Option.map_eq_some_iff.mp hmerged
      rw [AnnotatedAll]
      exact ⟨hlast, mergeFrom_annotated hrest hes.1 hes.2 rest rfl⟩

theorem mergeWindows_annotated {Γ : List Variable} {es : List Expr} {result : Option (List Expr)}
    (h : (mergeWindows es).Gives result) (hes : AnnotatedAll Γ K es) :
    ∀ merged, result = some merged → AnnotatedAll Γ K merged := by
  cases es with
  | nil =>
    simp only [mergeWindows, Logged.gives_pure] at h
    rintro _ rfl
    obtain rfl := Option.some.inj h
    trivial
  | cons e es =>
    rw [AnnotatedAll] at hes
    exact mergeFrom_annotated h hes.1 hes.2

end

/-! ### The list as a whole -/

/-- Optimized predicates are annotated for their host, which has become narrower, and come with the
type of what they leave. -/
structure Filtered.Annotated (Γ : List Variable) (K : Knowledge) (host : Host)
    (filtered : Filtered) : Prop where
  narrows : host.Narrows filtered.host
  predicates : AnnotatedAll Γ (filtered.host.offers K) filtered.predicates
  type : ∀ t, filtered.type = some t → filteredType filtered.host.type filtered.predicates = some t

theorem optimizePredicates_annotated {opt : Optimizer} {scope : Scope} {host : Host} {K : Knowledge}
    {es : List Expr} {filtered : Filtered} (hopt : opt.Sound)
    (h : (optimizePredicates opt scope host es).Gives filtered)
    (hhost : host.Annotated scope.visible K) (hes : AnnotatedAll scope.visible (host.offers K) es) :
    filtered.Annotated scope.visible K host := by
  obtain ⟨hnarrows, htype⟩ := optimizePredicates_narrows h
  suffices hpredicates : AnnotatedAll scope.visible
    (filtered.host.offers K) filtered.predicates from
    ⟨hnarrows, hpredicates, htype⟩
  obtain rfl | ⟨host', simplified, hsimplify, h⟩ := optimizePredicates_cases h
  · exact hes
  have hsimplified := simplifyPredicates_annotated hopt hsimplify hhost
    (hhost.refines_known scope) hes
  obtain ⟨-, rfl⟩ | ⟨kept, merged, hcanonical, hmerge, rfl⟩ := h
  · trivial
  · have hkept := canonicalList_annotated hopt hcanonical trivial hsimplified kept rfl
    exact mergeWindows_annotated hmerge hkept merged rfl

end TreeQuery
