import TreeQuery.Proofs.Typing.Compile
/-!
# How rules fail

Rules for paths, maps, windows and lists of predicates do not fail. The rules for truth values and
for predicates ask for the truth of constants, which may be undefined; and a predicate on a literal
of one item is compiled once more with the literal for the context item, which may fail as any
compilation may. There is no third way in which the rules for a list of predicates fail
(`optimizePredicates_fails`).

Nodes play a part in this: simplification reaches the filters below a truth value only if they
filter nodes, and a literal has none.
-/

namespace TreeQuery

section

variable {opt : Optimizer} {scope : Scope} {host : Host} {t : StaticType} {e : Expr} {f : Failure}

/-! ### Rules that do not fail -/

@[simp] theorem fails_remark {note : String} : ¬(remark note).Fails f := Logged.fails_write

@[simp] theorem fails_replace {old new : Expr} : ¬(replace old new).Fails f := by
  unfold replace
  cases old.same new <;> simp

@[simp] theorem fails_replaceIfEmpty {hasEmpty : Bool} :
    ¬(replaceIfEmpty scope e hasEmpty).Fails f := by
  simp [replaceIfEmpty, Logged.fails_ite]

@[simp] theorem fails_optimizePath {root : Option Expr} {steps : List Expr} {l : Option Location} :
    ¬(optimizePath scope root steps l).Fails f := by
  unfold optimizePath
  dsimp only
  split
  · simp
  · simp
  · simp
  · split <;> simp [Logged.fails_ite]

@[simp] theorem fails_dropContextItems {operands : List Expr} :
    ¬(dropContextItems operands).Fails f := by
  fun_induction dropContextItems operands with
  | case1 first second rest hfirst ih => simp [ih]
  | case2 first second rest hfirst => simp
  | case3 operands => simp

@[simp] theorem fails_optimizeMap {operands : List Expr} {l : Option Location} :
    ¬(optimizeMap scope operands l).Fails f := by
  simp only [optimizeMap]
  rw [Logged.fails_ite_bind]
  rintro (h | ⟨operands', -, h⟩)
  · simp [Logged.fails_ite] at h
  · split at h <;> simp [Logged.fails_ite] at h

@[simp] theorem fails_optimizeSearch {input query : Expr} {l : Option Location} :
    ¬(optimizeSearch scope input query l).Fails f := by
  simp [optimizeSearch, Logged.fails_ite]

@[simp] theorem fails_optimizePositionTest : ¬(optimizePositionTest e).Fails f := by
  unfold optimizePositionTest
  split
  · split <;> simp [Logged.fails_ite]
  · simp

@[simp] theorem fails_unwrapMap : ¬(unwrapMap scope host t e).Fails f := by
  unfold unwrapMap
  split
  · split
    · split <;> simp
    · simp
  · simp

@[simp] theorem fails_unwrapPath : ¬(unwrapPath scope host t e).Fails f := by
  unfold unwrapPath
  split
  · split
    · split <;> simp [Logged.fails_ite]
    · simp
  · simp

@[simp] theorem PredicateList.fails_add {l : PredicateList} : ¬(l.add e).Fails f := by
  simp [PredicateList.add, Logged.fails_ite]

@[simp] theorem fails_mergeFrom {es : List Expr} :
    {last : Expr} → ¬(mergeFrom last es).Fails f := by
  induction es with
  | nil => simp [mergeFrom]
  | cons e es ih =>
    intro last
    unfold mergeFrom
    split
    · split <;> simp [ih]
    · simp [ih]

@[simp] theorem fails_mergeWindows {es : List Expr} : ¬(mergeWindows es).Fails f := by
  cases es <;> simp [mergeWindows]

@[simp] theorem fails_finishFilter {root : Expr} {predicates : List Expr} {t : Option StaticType}
    {l : Option Location} : ¬(finishFilter root predicates t l).Fails f := by
  cases t <;> simp [finishFilter]

@[simp] theorem fails_finishStep {axis : Axis} {test : NodeTest} {predicates : List Expr}
    {t : Option StaticType} {l : Option Location} :
    ¬(finishStep axis test predicates t l).Fails f := by
  cases t <;> simp [finishStep]

@[simp] theorem fails_optimizeFilter {root : Expr} {predicates : List Expr} {l : Option Location} :
    (optimizeFilter opt scope root predicates l).Fails f ↔
    (optimizePredicates opt scope (.root root) predicates).Fails f := by
  simp [optimizeFilter]

@[simp] theorem fails_optimizeStep {axis : Axis} {test : NodeTest} {predicates : List Expr}
    {l : Option Location} : (optimizeStep opt scope axis test predicates l).Fails f ↔
      (optimizePredicates opt scope (.step axis test) predicates).Fails f := by
  simp only [optimizeStep, Logged.fails_bind, or_iff_left_iff_imp]
  rintro ⟨filtered, -, h⟩
  split at h <;> simp at h

end

/-! ### The truth of constants -/

def Error.OfConstant (err : Error) : Prop :=
  ∃ c : Expr, c.isConstant = true ∧ c.constantTruth = .error err

def Optimizer.FailsOnConstants (opt : Optimizer) : Prop :=
  ∀ {mode : TruthMode} {scope : Scope} {e : Expr} {K : Knowledge} {err : Error}, e.Annotated
    scope.visible K →
    (opt.simplify mode scope e).Fails (.error err) → err.OfConstant

theorem Expr.ofConstant_of_map {c : Expr} {α : Type} {g : Bool → α} {err : Error}
    (hc : c.isConstant = true) (h : c.constantTruth.map g = .error err) : err.OfConstant := by
  cases htruth : c.constantTruth with
  | ok b => simp [htruth, Except.map] at h
  | error err' =>
    obtain rfl : err' = err := by simpa [htruth, Except.map] using h
    exact ⟨c, hc, htruth⟩

theorem foldCall_fails {g : Builtin} {arg : Expr} {err : Error} (h : foldCall g arg = .error err) :
    err.OfConstant := by
  cases g with
  | boolean =>
    simp only [foldCall] at h
    split at h
    · cases h
    · split at h
      · next hc => exact Expr.ofConstant_of_map hc h
      · cases h
  | not =>
    simp only [foldCall] at h
    split at h
    · next hc => exact Expr.ofConstant_of_map hc h
    · split at h <;> cases h
  | _ => cases h

section

variable {opt : Optimizer} {scope : Scope} {K : Knowledge} {host : Host} {e : Expr} {err : Error}
    {l : Option Location}
  (hfails : opt.FailsOnConstants)

include hfails

theorem optimizeCall_fails {g : Builtin} {args : List Expr}
    (hargs : AnnotatedAll scope.visible K args)
    (h : (optimizeCall opt scope g args l).Fails (.error err)) : err.OfConstant := by
  unfold optimizeCall at h
  split at h
  · next arg =>
    simp only [AnnotatedAll, and_true] at hargs
    rw [Logged.fails_ite] at h
    obtain ⟨-, h⟩ | ⟨-, h⟩ := h
    · simp at h
    rw [Logged.fails_ite_bind] at h
    obtain h | ⟨arg', -, h⟩ := h
    · simp only [Logged.fails_ite, Logged.fails_pure, and_false, or_false] at h
      exact hfails hargs h.2
    · simp only [Logged.fails_bind, Logged.fails_lift] at h
      obtain ⟨err', hfold, herr⟩ | ⟨new, -, h⟩ := h
      · exact Failure.error.inj herr ▸ foldCall_fails hfold
      · split at h <;> simp at h
  · simp at h

/-! ### The canonical list -/

theorem operandPredicate_fails (he : e.Annotated scope.visible K)
    (h : (operandPredicate opt scope l e).Fails (.error err)) : err.OfConstant := by
  simp only [operandPredicate, Logged.fails_ite, Logged.fails_pure, and_false, or_false] at h
  exact optimizeCall_fails hfails (by simpa only [AnnotatedAll, and_true] using he) h.2

theorem splitOperands_fails : {es : List Expr} → {list : PredicateList} →
    AnnotatedAll scope.visible K es →
    (splitOperands opt scope l list es).Fails (.error err) → err.OfConstant
  | [], _, _, h => by simp [splitOperands] at h
  | [e], _, hes, h => by
    simp only [splitOperands, Logged.fails_bind, Logged.fails_pure, and_false,
      exists_false, or_false] at h
    simp only [AnnotatedAll, and_true] at hes
    exact operandPredicate_fails hfails hes h
  | e :: e₂ :: es, _, hes, h => by
    rw [AnnotatedAll] at hes
    simp only [splitOperands, Logged.fails_bind, PredicateList.fails_add, false_or] at h
    obtain h | ⟨e', -, list', -, h⟩ := h
    · exact operandPredicate_fails hfails hes.1 h
    · exact splitOperands_fails hes.2 h

end

theorem constantPredicate_fails {e : Expr} {err : Error} (h : constantPredicate e = .error err) :
    err.OfConstant := by
  unfold constantPredicate at h
  split at h
  · cases h
  · split at h
    · next hc => exact Expr.ofConstant_of_map hc h
    · cases h

section

variable {opt : Optimizer} {scope : Scope} {K : Knowledge} {host : Host} {e : Expr} {err : Error}

theorem canonicalPredicate_fails (hfails : opt.FailsOnConstants) {list : PredicateList}
    (he : e.Annotated scope.visible K)
    (h : (canonicalPredicate opt scope list e).Fails (.error err)) : err.OfConstant := by
  unfold canonicalPredicate at h
  split at h
  · next operands hsplit =>
    simp only [Logged.fails_bind, fails_remark, false_or] at h
    obtain ⟨-, -, h⟩ := h
    exact splitOperands_fails hfails (splittable?_annotated hsplit he) h
  · simp only [Logged.fails_bind, Logged.fails_lift, Logged.fails_pure, and_false,
      exists_false, or_false] at h
    obtain ⟨err', hconstant, herr⟩ := h
    exact Failure.error.inj herr ▸ constantPredicate_fails hconstant

theorem canonicalList_fails (hopt : opt.Sound) (hfails : opt.FailsOnConstants) :
    {es : List Expr} → {list : PredicateList} →
    AnnotatedAll scope.visible K es →
    (canonicalList opt scope host list es).Fails (.error err) → err.OfConstant
  | [], _, _, h => by simp [canonicalList] at h
  | e :: es, _, hes, h => by
    rw [AnnotatedAll] at hes
    simp only [canonicalList, Logged.fails_bind] at h
    obtain h | ⟨e', he', h | ⟨⟨list', e₂⟩, -, h⟩⟩ := h
    · exact hfails hes.1 h
    · exact canonicalPredicate_fails hfails (hopt.simplify hes.1 he') h
    · rw [Logged.fails_ite] at h
      obtain ⟨-, h⟩ | ⟨-, h⟩ := h
      · simp at h
      · simp only [Logged.fails_bind, PredicateList.fails_add, false_or] at h
        obtain ⟨list₂, -, h⟩ := h
        exact canonicalList_fails hopt hfails hes.2 h

end

/-! ### One predicate -/

/-- The rules for a predicate up to the point where the root is put for the context item. -/
def unwrapPredicate (scope : Scope) (host : Host) (t : StaticType) (e : Expr) : Compile Expr := do
  let e ← optimizePositionTest e
  let e ← unwrapMap scope host t e
  unwrapPath scope host t e

/-- A predicate on a literal of one item does not compile with the literal for the context item. -/
def Host.InliningFails (opt : Optimizer) (scope : Scope) (t : StaticType) (host : Host) (e : Expr)
    (err : Error) : Prop :=
  ∃ root v unwrapped inlined, host = .root root ∧ root.form = .literal [v] ∧
    (unwrapPredicate scope host t e).Gives unwrapped ∧
      unwrapped.inlineContext? root = some inlined ∧
    (opt.compile scope inlined).Fails (.error err)

theorem Host.Narrows.inliningFails {opt : Optimizer} {scope : Scope} {t : StaticType} {h h' : Host}
    {e : Expr} {err : Error} (hnarrows : h.Narrows h')
    (hfails : h'.InliningFails opt scope t e err) : h.InliningFails opt scope t e err := by
  obtain ⟨root, v, unwrapped, inlined, rfl, hroot⟩ := hfails
  cases h with
  | step axis test => cases hnarrows
  | root r =>
    obtain rfl : r = root := hnarrows
    exact ⟨r, v, unwrapped, inlined, rfl, hroot⟩

section

variable {opt : Optimizer} {scope : Scope} {K : Knowledge} {host : Host} {t : StaticType}
    {e : Expr} {err : Error}

theorem inlineRoot_fails {f : Failure} (h : (inlineRoot opt scope host e).Fails f) :
    ∃ root v inlined, host = .root root ∧ root.form = .literal [v] ∧
    e.inlineContext? root = some inlined ∧
      (opt.compile scope inlined).Fails f := by
  unfold inlineRoot at h
  split at h
  · next root =>
    split at h
    · next v hroot =>
      split at h
      · next inlined hinlined => exact ⟨root, v, inlined, rfl, hroot, hinlined, h⟩
      · simp at h
    · simp at h
  · simp at h

theorem simplifyPredicate_fails {positional : Bool}
    (h : (simplifyPredicate opt scope t positional host e).Fails (.error err)) :
    host.InliningFails opt scope t e err := by
  simp only [simplifyPredicate] at h
  rw [Logged.fails_ite] at h
  obtain ⟨-, h⟩ | ⟨-, h⟩ := h
  · simp at h
  simp only [Logged.fails_bind, fails_optimizePositionTest, fails_unwrapMap, false_or] at h
  obtain ⟨test, htest, changed, hchanged, h⟩ := h
  have finish (h : (finishPredicate opt scope t host e changed).Fails (.error err)) :
      host.InliningFails opt scope t e err := by
    simp only [finishPredicate, Logged.fails_bind, fails_unwrapPath, fails_replace,
      Logged.fails_pure, and_false, exists_false, or_false, false_or] at h
    obtain ⟨unwrapped, hunwrapped, h⟩ := h
    obtain ⟨root, v, inlined, hhost, hroot, hinlined, h⟩ := inlineRoot_fails h
    refine ⟨root, v, unwrapped, inlined, hhost, hroot, ?_, hinlined, h⟩
    simp only [unwrapPredicate, Logged.gives_bind]
    exact ⟨test, htest, changed, hchanged, hunwrapped⟩
  split at h
  · exact finish h
  · rw [Logged.fails_ite] at h
    obtain ⟨-, h⟩ | ⟨-, h⟩ := h
    · exact finish h
    · split at h
      · simp at h
      · rw [Logged.fails_ite] at h
        obtain ⟨-, h⟩ | ⟨-, h⟩ := h
        · simp at h
        · exact finish h

theorem simplifyPredicates_fails (hopt : opt.Sound) {positional : Bool} :
    {es : List Expr} → {host : Host} →
    host.Annotated scope.visible K → (host.offers K).Refines scope.known →
    AnnotatedAll scope.visible (host.offers K) es →
    (simplifyPredicates opt scope t positional host es).Fails (.error err) →
    ∃ e ∈ es, host.InliningFails opt scope t e err
  | [], host, _, _, _, h => by simp [simplifyPredicates] at h
  | e :: es, host, hhost, hscope, hes, h => by
    rw [AnnotatedAll] at hes
    simp only [simplifyPredicates, Logged.fails_bind, Logged.fails_pure, and_false,
      exists_false, or_false] at h
    obtain h | ⟨⟨host', simplified⟩, h', h⟩ := h
    · exact ⟨e, List.mem_cons_self, simplifyPredicate_fails h⟩
    · have hnarrows : host.Narrows host' := simplifyPredicate_narrows h'
      obtain ⟨e', he', hfails⟩ := simplifyPredicates_fails hopt (hnarrows.annotated hhost)
        (hnarrows.offers.trans hscope) (AnnotatedAll.refine hnarrows.offers hes.2) h
      exact ⟨e', List.mem_cons_of_mem e he', hnarrows.inliningFails hfails⟩

/-! ### The list as a whole -/

/-- The rules for a list of predicates fail in two ways: for the truth of a constant, or for a
predicate in which a literal takes the place of the context item. -/
theorem optimizePredicates_fails (hopt : opt.Sound) (hfails : opt.FailsOnConstants) {es : List Expr}
    (hhost : host.Annotated scope.visible K) (hes : AnnotatedAll scope.visible (host.offers K) es)
    (h : (optimizePredicates opt scope host es).Fails (.error err)) : scope.optimize = true ∧
    (err.OfConstant ∨ ∃ e ∈ es, host.InliningFails opt
      (scope.withFocus (some host.type.item)) host.type e err) := by
  simp only [optimizePredicates] at h
  rw [Logged.fails_ite] at h
  obtain ⟨-, h⟩ | ⟨hoptimize, h⟩ := h
  · simp at h
  simp only [Bool.or_eq_true, Bool.not_eq_true', not_or, Bool.not_eq_false] at hoptimize
  refine ⟨hoptimize.1, ?_⟩
  have hscope := hhost.refines_known scope
  simp only [Logged.fails_bind] at h
  obtain h | ⟨⟨host', simplified⟩, hsimplified, h | ⟨canonical, -, h⟩⟩ := h
  · exact .inr (simplifyPredicates_fails hopt hhost hscope hes h)
  · have hes' := simplifyPredicates_annotated hopt hsimplified hhost hscope hes
    exact .inl (canonicalList_fails hopt hfails hes' h)
  · split at h
    · simp at h
    · simp only [Logged.fails_bind, fails_mergeWindows, false_or] at h
      obtain ⟨merged, -, h⟩ := h
      split at h <;> simp at h

end

/-! ### The truth of filters of nodes -/

def Expr.Valueless (e : Expr) : Prop := ∀ values, e.literalValues? = some values → values = []

namespace Expr

variable {Γ : List Variable} {K : Knowledge} {e : Expr}

@[simp] theorem valueless_at? {l : Option Location} : (e.at? l).Valueless ↔ e.Valueless := Iff.rfl

theorem valueless_empty : empty.Valueless := fun _ h => (Option.some.inj h).symm

theorem valueless_of_none (h : e.literalValues? = none) : e.Valueless := by
  intro values hvalues
  rw [h] at hvalues
  cases hvalues

theorem Annotated.valueless (h : e.Annotated Γ K) (hnode : e.type.item.isNode = true) :
    e.Valueless := by
  obtain ⟨form, τ, l⟩ := e
  intro values hvalues
  obtain rfl : form = .literal values := literalValues?_eq_some.mp hvalues
  obtain ⟨-, rfl | ⟨hnil, -⟩⟩ := h.infers
  · cases values with
    | nil => rfl
    | cons v vs =>
      have hadmits : (literalType (v :: vs)).item.admits v = true :=
        literalType_admits List.mem_cons_self
      change (literalType (v :: vs)).item.isNode = true at hnode
      cases hitem : (literalType (v :: vs)).item <;>
        simp [hitem, ItemType.isNode, ItemType.admits, ItemType.admitsAtomic] at hnode hadmits
  · exact hnil

end Expr

section

variable {opt : Optimizer} {scope : Scope} {root e : Expr} {predicates : List Expr}
    {l : Option Location}

theorem optimizeFilter_valueless (h : (optimizeFilter opt scope root predicates l).Gives e)
    (hroot : root.Valueless) : e.Valueless := by
  obtain ⟨filtered, -, ⟨t, -, ⟨-, rfl⟩ | rfl⟩ | ⟨-, place, rfl⟩⟩ := optimizeFilter_cases h
  · exact hroot
  · exact Expr.valueless_of_none rfl
  · exact Expr.valueless_at?.mpr Expr.valueless_empty

theorem remainingRoot_valueless (h : (remainingRoot opt scope root predicates).Gives e)
    (hroot : root.Valueless) : e.Valueless := by
  obtain ⟨-, rfl⟩ | ⟨-, h⟩ := remainingRoot_cases h
  · exact hroot
  · exact optimizeFilter_valueless h hroot

theorem optimizePath_valueless {steps : List Expr}
    (h : (optimizePath scope (some root) steps l).Gives e) (hroot : root.Valueless) :
    e.Valueless := by
  obtain ⟨-, rfl⟩ | ⟨-, rfl⟩ | ⟨-, place, rfl⟩ := optimizePath_some_cases h
  · exact Expr.valueless_at?.mpr hroot
  · exact Expr.valueless_of_none rfl
  · exact Expr.valueless_at?.mpr Expr.valueless_empty

theorem extendRoot_valueless {path : Expr}
    (h : (extendRoot opt scope root predicates e).Gives (some path)) (hroot : root.Valueless) :
    path.Valueless := by
  obtain ⟨head, hhead, ⟨-, rfl⟩ | ⟨steps, -, hpath⟩⟩ := extendRoot_cases h
  · exact remainingRoot_valueless hhead hroot
  · exact optimizePath_valueless hpath (remainingRoot_valueless hhead hroot)

theorem fails_optimizeComparison {op : CompareOp} {left right : Expr} {f : Failure}
    (hleft : left.Valueless) : ¬(optimizeComparison scope .general op left right l).Fails f := by
  intro h
  simp only [optimizeComparison] at h
  rw [Logged.fails_ite] at h
  obtain ⟨-, h⟩ | ⟨-, h⟩ := h
  · simp at h
  split at h
  · next vs ws hvs _ =>
    obtain rfl := hleft vs hvs
    simp [foldComparison, compareGeneral, anyTest] at h
  · rw [Logged.fails_ite] at h
    obtain ⟨-, h⟩ | ⟨-, h⟩ := h <;> simp [Logged.fails_ite] at h

variable {K : Knowledge} {err : Error} (hopt : opt.Sound) (hfails : opt.FailsOnConstants)

include hopt hfails

/-- Nodes are no literal of one item, so that a filter of nodes fails for the truth of a constant
alone. -/
theorem optimizeFilter_fails (hroot : root.Annotated scope.visible K)
    (hnode : root.type.item.isNode = true)
    (hpredicates : AnnotatedAll scope.visible (root.Offers K) predicates)
    (h : (optimizeFilter opt scope root predicates l).Fails (.error err)) : err.OfConstant := by
  rw [fails_optimizeFilter] at h
  have hannotated : (Host.root root).Annotated scope.visible K := hroot
  obtain ⟨-, hconstant | ⟨e, -, root', v, -, -, hhost, hliteral, -⟩⟩ :=
    optimizePredicates_fails hopt hfails hannotated hpredicates h
  · exact hconstant
  · obtain rfl : root = root' := Host.root.inj hhost
    have hvalues : root.literalValues? = some [v] := by rw [Expr.literalValues?, hliteral]
    cases hroot.valueless hnode [v] hvalues

theorem remainingRoot_fails (hroot : root.Annotated scope.visible K)
    (hnode : root.type.item.isNode = true)
    (hpredicates : AnnotatedAll scope.visible (root.Offers K) predicates)
    (h : (remainingRoot opt scope root predicates).Fails (.error err)) : err.OfConstant := by
  unfold remainingRoot at h
  split at h
  · simp at h
  · exact optimizeFilter_fails hopt hfails hroot hnode hpredicates.dropLast h

theorem extendRoot_fails (hroot : root.Annotated scope.visible K)
    (hnode : root.type.item.isNode = true)
    (hpredicates : AnnotatedAll scope.visible (root.Offers K) predicates)
    (h : (extendRoot opt scope root predicates e).Fails (.error err)) : err.OfConstant := by
  simp only [extendRoot, Logged.fails_ite, Logged.fails_map] at h
  obtain ⟨-, h⟩ | ⟨-, h⟩ := h
  · exact remainingRoot_fails hopt hfails hroot hnode hpredicates h
  · split at h
    · simp only [Logged.fails_bind, Logged.fails_map, fails_optimizePath, and_false,
        exists_false, or_false] at h
      exact remainingRoot_fails hopt hfails hroot hnode hpredicates h
    · simp at h

theorem liftPredicate_fails (hroot : root.Annotated scope.visible K)
    (hnode : root.type.item.isNode = true)
    (hpredicates : AnnotatedAll scope.visible (root.Offers K) predicates)
    (h : (liftPredicate opt scope root predicates e).Fails (.error err)) : err.OfConstant := by
  simp only [liftPredicate, Logged.fails_bind] at h
  obtain h | ⟨extended, -, h⟩ := h
  · exact extendRoot_fails hopt hfails hroot hnode hpredicates h
  · split at h
    · simp at h
    · simp only [Logged.fails_ite, Logged.fails_bind, Logged.fails_map, fails_optimizeMap,
        Logged.fails_pure, and_false, exists_false, or_false] at h
      exact remainingRoot_fails hopt hfails hroot hnode hpredicates h.2

theorem simplifyFilter_fails (hroot : root.Annotated scope.visible K)
    (hpredicates : AnnotatedAll scope.visible (root.Offers K) predicates)
    (h : (simplifyFilter opt scope root predicates).Fails (.error err)) : err.OfConstant := by
  unfold simplifyFilter at h
  split at h
  · simp at h
  next last hlast =>
  rw [Logged.fails_ite] at h
  obtain ⟨-, h⟩ | ⟨hguard, h⟩ := h
  · simp at h
  have hnode : root.type.item.isNode = true := by
    simp only [Bool.or_eq_true, Bool.not_eq_true', not_or, Bool.not_eq_false] at hguard
    exact hguard.1
  have lift (h : (liftPredicate opt scope root predicates last).Fails (.error err)) :
      err.OfConstant :=
    liftPredicate_fails hopt hfails hroot hnode hpredicates h
  have operand {left right : Expr}
      (h : (if right.dependsOn .context then pure none else
        extendRoot opt scope root predicates left).Fails (.error err)) :
      err.OfConstant := by
    simp only [Logged.fails_ite, Logged.fails_pure, and_false, false_or] at h
    exact extendRoot_fails hopt hfails hroot hnode hpredicates h.2
  split at h
  · next op left right hform =>
    rw [Logged.fails_ite_bind] at h
    obtain h | ⟨lifted, hlifted, h⟩ := h
    · exact operand h
    · dsimp only at h
      split at h
      · next left' =>
        simp only [Logged.gives_ite, Logged.gives_pure, reduceCtorEq, and_false,
          false_or] at hlifted
        simp only [Logged.fails_map] at h
        exact absurd h
          (fails_optimizeComparison (extendRoot_valueless hlifted.2 (hroot.valueless hnode)))
      · exact lift h
  · next input query hform =>
    rw [Logged.fails_ite_bind] at h
    obtain h | ⟨lifted, hlifted, h⟩ := h
    · exact operand h
    · dsimp only at h
      split at h
      · simp at h
      · exact lift h
  · exact lift h

end

/-! ### Simplification -/

section

variable {opt : Optimizer} {scope : Scope} {K : Knowledge} {mode : TruthMode}
    {e : Expr} {err : Error}
  (hopt : opt.Sound) (hfails : opt.FailsOnConstants)

include hopt hfails

theorem simplerTruth_fails (he : e.Annotated scope.visible K)
    (h : (simplerTruth opt mode scope e).Fails (.error err)) : err.OfConstant := by
  obtain ⟨form, τ, l⟩ := e
  rw [Expr.Annotated] at he
  unfold simplerTruth at h
  split at h
  · simp at h
  · simp at h
  · next arg hform =>
    obtain rfl : form = .call .count [arg] := hform
    simp only [Logged.fails_ite, Logged.fails_map, Logged.fails_pure, and_false, false_or] at h
    exact optimizeCall_fails hfails he.2 h.2.2
  · next root predicates hform =>
    obtain rfl : form = .filter root predicates := hform
    simp only [Form.Annotated] at he
    exact simplifyFilter_fails hopt hfails he.2.1 he.2.2 h
  · simp at h

theorem simplify_fails (he : e.Annotated scope.visible K)
    (h : (simplify opt mode scope e).Fails (.error err)) : err.OfConstant := by
  simp only [simplify] at h
  rw [Logged.fails_ite] at h
  obtain ⟨-, h⟩ | ⟨-, h⟩ := h
  · simp at h
  simp only [Logged.fails_bind] at h
  obtain h | ⟨new?, hnew, h⟩ := h
  · exact simplerTruth_fails hopt hfails he h
  · split at h
    · next new =>
      simp only [Logged.fails_bind, fails_replace, false_or] at h
      obtain ⟨replaced, hreplaced, h⟩ := h
      exact hfails (replace_annotated hreplaced (simplerTruth_annotated hopt hnew he)) h
    · simp at h

end

/-- However far its rules may come back to it, simplification fails for the truth of a constant
alone. -/
theorem optimizerWithin_failsOnConstants : (depth : Nat) → (optimizerWithin depth).FailsOnConstants
  | 0 => fun _ h => nomatch Logged.fails_fail.mp h
  | depth + 1 => fun he h =>
    simplify_fails (optimizerWithin_sound depth) (optimizerWithin_failsOnConstants depth) he h

end TreeQuery
