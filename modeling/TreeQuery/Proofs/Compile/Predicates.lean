import TreeQuery.Proofs.Compile.PredicateCases
import TreeQuery.Proofs.Compile.Rules
/-!
# What the rules for predicates make of demands

Predicates are unwrapped, merged, split, inlined and compiled once more; all that is left in the
list, and the filters, steps and lifted predicates that are made of it, have nodes as demanded.
-/

namespace TreeQuery

variable {α : Type}

def Host.Satisfies (D : Demand α) (a : α) : Host → Prop
  | .root e => e.Satisfies D a
  | .step _ _ => True

/-- Whether all nodes of predicates and their host are as demanded. -/
structure Hosted (D : Demand α) (a : α) (p : Host × List Expr) : Prop where
  host : p.1.Satisfies D a
  predicates : AllSatisfy D a p.2

section Predicates

variable {before after : Demand α} {fits : α → Scope → Prop}
    (H : Transfer before after fits) {a : α}
  {opt : Optimizer} (hopt : opt.Transfers before after fits) {scope : Scope}

include H

/-! ### One predicate -/

theorem unwrapMap_yields {host : Host} {t : StaticType} {e : Expr} (h : e.Satisfies after a) :
    (unwrapMap scope host t e).Yields (Expr.Satisfies after a) := by
  have hform := h.form
  unfold unwrapMap
  split
  · next first second rest heq =>
    rw [heq] at hform
    split
    · split
      · exact .pure hform.2.1
      · exact optimizeMap_yields H hform.2
    · exact .pure h
  · exact .pure h

theorem unwrapPath_yields (hscope : fits a scope) {host : Host} {t : StaticType} {e : Expr}
    (h : e.Satisfies after a) : (unwrapPath scope host t e).Yields (Expr.Satisfies after a) := by
  obtain ⟨form, τ, place⟩ := e
  unfold unwrapPath
  split
  · next first steps heq =>
    dsimp only at heq
    subst heq
    have hpath : (optimizePath scope none steps place).Yields (Expr.Satisfies after a) :=
      optimizePath_none_yields H hscope (H.rootless h.1) rfl h.2.2
    split
    · split
      · next step =>
        split
        · exact .pure h.2.2.1
        · exact hpath
      · exact hpath
    · exact .pure h
  · exact .pure h

include hopt

theorem inlineRoot_yields (hscope : fits a scope) {host : Host} {e : Expr}
    (hhost : host.Satisfies after a) (h : e.Satisfies after a) :
    (inlineRoot opt scope host e).Yields (Expr.Satisfies after a) := by
  unfold inlineRoot
  split
  · next root =>
    split
    · split
      · next inlined hinlined =>
        unfold Expr.inlineContext? at hinlined
        split at hinlined
        · obtain rfl := Option.some.inj hinlined
          exact hopt.compile hscope
            (Expr.satisfies_replaceContext H (H.source hhost) e (H.source h))
        · cases hinlined
      · exact .pure h
    · exact .pure h
  · exact .pure h

theorem finishPredicate_yields (hscope : fits a scope) {t : StaticType} {host : Host} {old e : Expr}
    (hhost : host.Satisfies after a) (h : e.Satisfies after a) :
    (finishPredicate opt scope t host old e).Yields (Hosted after a) := by
  refine (unwrapPath_yields H hscope h).bind fun e he =>
    (inlineRoot_yields H hopt hscope hhost he).bind fun e he => ?_
  exact (replace_yields he).bind fun e he => .pure ⟨hhost, he, trivial⟩

omit H hopt in
theorem selfStep?_satisfies {e : Expr} {test : NodeTest} {inner : List Expr}
    (h : selfStep? e = some (test, inner)) (he : e.Satisfies after a) :
    AllSatisfy after a inner := by
  have hform := he.form
  unfold selfStep? at h
  split at h
  · next heq =>
    obtain ⟨-, rfl⟩ := Prod.mk.inj (Option.some.inj h)
    rw [heq] at hform
    exact hform
  · next heq =>
    obtain ⟨-, rfl⟩ := Prod.mk.inj (Option.some.inj h)
    rw [heq] at hform
    exact hform.1.form
  · cases h

theorem simplifyPredicate_yields (hscope : fits a scope) {t : StaticType} {positional : Bool}
    {host : Host} {e : Expr} (hhost : host.Satisfies after a) (h : e.Satisfies after a) :
    (simplifyPredicate opt scope t positional host e).Yields (Hosted after a) := by
  unfold simplifyPredicate
  split
  · exact (remark_yields _).bind fun _ _ => .pure ⟨hhost, trivial⟩
  · refine (optimizePositionTest_yields H h).bind fun e he =>
      (unwrapMap_yields H he).bind fun e he => ?_
    split
    · exact finishPredicate_yields H hopt hscope hhost he
    · next test inner hself =>
      have hinner := selfStep?_satisfies hself he
      split
      · exact finishPredicate_yields H hopt hscope hhost he
      · dsimp only
        split
        · next host' hmerged =>
          have hhost' : host'.Satisfies after a := by
            split at hmerged
            · split at hmerged
              · cases hmerged
              · obtain ⟨own, -, rfl⟩ := Option.map_eq_some_iff.mp hmerged
                trivial
            · cases hmerged
          exact (remark_yields _).bind fun _ _ => .pure ⟨hhost', hinner⟩
        · split
          · exact (remark_yields _).bind fun _ _ => .pure ⟨hhost, trivial⟩
          · exact finishPredicate_yields H hopt hscope hhost he

theorem simplifyPredicates_yields (hscope : fits a scope) {t : StaticType} {positional : Bool} :
    (es : List Expr) → {host : Host} → host.Satisfies after a → AllSatisfy after a es →
      (simplifyPredicates opt scope t positional host es).Yields (Hosted after a)
  | [], _, hhost, _ => .pure ⟨hhost, trivial⟩
  | e :: es, _, hhost, h => by
    rw [simplifyPredicates]
    refine (simplifyPredicate_yields H hopt hscope hhost h.1).bind fun p hp => ?_
    refine (simplifyPredicates_yields hscope es hp.host h.2).bind fun q hq => ?_
    exact .pure ⟨hq.host, allSatisfy_append.mpr ⟨hp.predicates, hq.predicates⟩⟩

/-! ### The canonical list -/

omit H hopt in
theorem PredicateList.add_yields {l : PredicateList} {e : Expr} (hl : AllSatisfy after a l.kept)
    (he : e.Satisfies after a) : (l.add e).Yields fun l => AllSatisfy after a l.kept := by
  unfold PredicateList.add
  dsimp only
  split
  · exact (remark_yields _).bind fun _ _ => .pure hl
  · split
    · exact .pure (allSatisfy_append.mpr ⟨hl, he, trivial⟩)
    · exact (remark_yields _).bind fun _ _ => .pure hl

theorem operandPredicate_yields (hscope : fits a scope) {l : Option Location} {e : Expr}
    (h : e.Satisfies after a) :
    (operandPredicate opt scope l e).Yields (Expr.Satisfies after a) := by
  unfold operandPredicate
  split
  · exact optimizeCall_yields H hopt hscope ⟨h, trivial⟩
  · exact .pure h

theorem splitOperands_yields (hscope : fits a scope) {place : Option Location} :
    (es : List Expr) → {l : PredicateList} → AllSatisfy after a l.kept → AllSatisfy after a es →
    (splitOperands opt scope place l es).Yields fun p => AllSatisfy after a p.1.kept ∧
    p.2.Satisfies after a
  | [], _, hl, _ => .pure ⟨hl, H.ofBoolAt _ _⟩
  | [e], _, hl, h => (operandPredicate_yields H hopt hscope h.1).bind fun e he => .pure ⟨hl, he⟩
  | e :: d :: es, l, hl, h => by
    rw [splitOperands]
    · refine (operandPredicate_yields H hopt hscope h.1).bind fun e he =>
        (PredicateList.add_yields hl he).bind fun l hl => ?_
      exact splitOperands_yields hscope (d :: es) hl h.2
    · simp

omit hopt in
theorem constantPredicate_yields {e : Expr} (h : e.Satisfies after a) :
    (Logged.lift (constantPredicate e) : Compile Expr).Yields (Expr.Satisfies after a) := by
  unfold constantPredicate
  split
  · exact yields_lift raises_ok fun _ hp =>
      Except.ok.inj hp ▸ Expr.satisfies_at?.mpr (H.ofPositionTest _)
  · split
    · refine yields_lift (e.constantTruth_ordinary.map _) fun p hp => ?_
      cases htruth : e.constantTruth with
      | error error => simp [htruth, Except.map] at hp
      | ok b =>
        obtain rfl : (Expr.ofBool b).at? e.location = p := by simpa [htruth, Except.map] using hp
        exact H.ofBoolAt _ _
    · exact yields_lift raises_ok fun _ hp => Except.ok.inj hp ▸ h

theorem canonicalPredicate_yields (hscope : fits a scope) {l : PredicateList} {e : Expr}
    (hl : AllSatisfy after a l.kept) (h : e.Satisfies after a) :
    (canonicalPredicate opt scope l e).Yields fun p => AllSatisfy after a p.1.kept ∧
    p.2.Satisfies after a := by
  have hform := h.form
  unfold canonicalPredicate
  split
  · next operands hsplit =>
    unfold splittable? at hsplit
    split at hsplit
    · next heq =>
      rw [heq] at hform
      split at hsplit
      · cases hsplit
      · obtain rfl := Option.some.inj hsplit
        exact (remark_yields _).bind fun _ _ => splitOperands_yields H hopt hscope _ hl hform
    · cases hsplit
  · exact (constantPredicate_yields H h).bind fun e he => .pure ⟨hl, he⟩

omit hopt in
theorem resolveSingleton_satisfies (host : Host) {e : Expr} (h : e.Satisfies after a) :
    (resolveSingleton host e).Satisfies after a := by
  unfold resolveSingleton
  split
  · split
    · exact H.ofBoolAt _ _
    · exact h
  · exact h

theorem canonicalList_yields (hscope : fits a scope) {host : Host} :
    (es : List Expr) → {l : PredicateList} →
    AllSatisfy after a l.kept → AllSatisfy after a es →
      (canonicalList opt scope host l es).Yields fun kept => ∀ es, kept = some es →
      AllSatisfy after a es
  | [], _, hl, _ => .pure fun _ h => Option.some.inj h ▸ hl
  | e :: es, l, hl, h => by
    rw [canonicalList]
    refine (hopt.simplify .predicate hscope h.1).bind fun e he => ?_
    refine (canonicalPredicate_yields H hopt hscope hl he).bind fun p hp => ?_
    have hresolved := resolveSingleton_satisfies H host hp.2
    dsimp only
    split
    · exact (remark_yields _).bind fun _ _ => .pure nofun
    · exact (PredicateList.add_yields hp.1 hresolved).bind fun l hl =>
        canonicalList_yields hscope es hl h.2

omit hopt in
theorem mergeFrom_yields : (es : List Expr) → (last : Expr) → last.Satisfies after a →
    AllSatisfy after a es →
    (mergeFrom last es).Yields fun kept => ∀ es, kept = some es → AllSatisfy after a es
  | [], last, hlast, _ => .pure fun _ h => Option.some.inj h ▸ ⟨hlast, trivial⟩
  | e :: es, last, hlast, h => by
    rw [mergeFrom]
    split
    · split
      · refine (remark_yields _).bind fun _ _ =>
          mergeFrom_yields es _ (Expr.satisfies_at?.mpr ?_) h.2
        exact H.ofForm trivial rfl trivial
      · exact (remark_yields _).bind fun _ _ => .pure nofun
    · refine (mergeFrom_yields es e h.1 h.2).bind fun rest hrest => .pure fun kept hkept => ?_
      obtain ⟨es', hes', rfl⟩ := Option.map_eq_some_iff.mp hkept
      exact ⟨hlast, hrest es' hes'⟩

omit hopt in
theorem mergeWindows_yields {es : List Expr} (h : AllSatisfy after a es) :
    (mergeWindows es).Yields fun kept => ∀ es, kept = some es → AllSatisfy after a es := by
  cases es with
  | nil => exact .pure fun _ h => Option.some.inj h ▸ trivial
  | cons e es => exact mergeFrom_yields H es e h.1 h.2

theorem optimizePredicates_yields (hscope : fits a scope) (host : Host) {es : List Expr}
    (hhost : host.Satisfies after a) (h : AllSatisfy after a es) :
    (optimizePredicates opt scope host es).Yields fun f => AllSatisfy after a f.predicates := by
  have hfocus := H.withFocus hscope (some host.type.item)
  unfold optimizePredicates
  split
  · exact .pure h
  · dsimp only
    refine (simplifyPredicates_yields H hopt hfocus es hhost h).bind fun p hp => ?_
    refine (canonicalList_yields H hopt hfocus _ (l := ⟨[], false⟩) trivial hp.predicates).bind
      fun kept hkept => ?_
    cases kept with
    | none => exact .pure trivial
    | some es =>
      refine (mergeWindows_yields H (hkept es rfl)).bind fun kept hkept => ?_
      cases kept with
      | none => exact .pure trivial
      | some es => exact .pure (hkept es rfl)

/-! ### Filters and steps -/

omit hopt in
theorem finishFilter_yields {root : Expr} {es : List Expr} {t : Option StaticType}
    {l : Option Location} (ht : ∀ τ, t = some τ → filteredType root.type es = some τ)
    (hroot : root.Satisfies after a) (h : AllSatisfy after a es) :
    (finishFilter root es t l).Yields (Expr.Satisfies after a) := by
  unfold finishFilter
  split
  · next τ =>
    have htype : (Form.filter root es).computedType = τ := by
      rw [Form.computedType, ht τ rfl, Option.getD_some]
    split
    · exact .pure hroot
    · exact .pure (H.ofForm trivial htype.symm ⟨hroot, h⟩)
  · exact replace_yields H.empty

omit hopt in
theorem finishStep_yields {axis : Axis} {test : NodeTest} {es : List Expr} {t : Option StaticType}
    {l : Option Location} (ht : ∀ τ, t = some τ → filteredType (stepType axis test) es = some τ)
    (h : AllSatisfy after a es) :
    (finishStep axis test es t l).Yields (Expr.Satisfies after a) := by
  unfold finishStep
  split
  · next τ =>
    have htype : (Form.step axis test es).computedType = τ := by
      rw [Form.computedType, ht τ rfl, Option.getD_some]
    exact .pure (H.ofForm trivial htype.symm h)
  · exact replace_yields H.empty

theorem optimizeFilter_yields (hscope : fits a scope) {root : Expr} {es : List Expr}
    {l : Option Location} (hroot : root.Satisfies after a) (h : AllSatisfy after a es) :
    (optimizeFilter opt scope root es l).Yields (Expr.Satisfies after a) := by
  refine (optimizePredicates_yields H hopt hscope (.root root) hroot h).gives.bind
    fun filtered hf => ?_
  obtain ⟨hpredicates, hgives⟩ := hf
  obtain ⟨host, predicates, t⟩ := filtered
  obtain ⟨hnarrows, htype⟩ := optimizePredicates_narrows hgives
  cases host with
  | step axis test => cases hnarrows
  | root r =>
    obtain rfl : root = r := hnarrows
    exact finishFilter_yields H htype hroot hpredicates

theorem optimizeStep_yields (hscope : fits a scope) {axis : Axis} {test : NodeTest} {es : List Expr}
    {l : Option Location} (h : AllSatisfy after a es) :
    (optimizeStep opt scope axis test es l).Yields (Expr.Satisfies after a) := by
  refine (optimizePredicates_yields H hopt hscope (.step axis test) trivial h).gives.bind
    fun filtered hf => ?_
  obtain ⟨hpredicates, hgives⟩ := hf
  obtain ⟨host, predicates, t⟩ := filtered
  obtain ⟨hnarrows, htype⟩ := optimizePredicates_narrows hgives
  cases host with
  | root r => cases hnarrows
  | step axis' test' => exact finishStep_yields H htype hpredicates

omit hopt in
theorem optimizeSearch_yields {input query : Expr} {l : Option Location}
    (hinput : input.Satisfies after a) (hquery : query.Satisfies after a) :
    (optimizeSearch scope input query l).Yields (Expr.Satisfies after a) := by
  unfold optimizeSearch
  dsimp only
  split
  · exact (remark_yields _).bind fun _ _ => .pure (H.ofBoolAt _ _)
  · exact .pure (H.ofForm trivial rfl ⟨hinput, hquery⟩)

/-! ### The truth of a filter -/

theorem remainingRoot_yields (hscope : fits a scope) {root : Expr} {es : List Expr}
    (hroot : root.Satisfies after a) (h : AllSatisfy after a es) :
    (remainingRoot opt scope root es).Yields (Expr.Satisfies after a) := by
  have hlast : AllSatisfy after a es.dropLast :=
    allSatisfy_iff.mpr fun e he => allSatisfy_iff.mp h e (List.dropLast_subset es he)
  unfold remainingRoot
  split
  · exact .pure hroot
  · exact optimizeFilter_yields H hopt hscope hroot hlast

omit H hopt in
theorem relativeSteps?_satisfies {e : Expr} {steps : List Expr} (h : relativeSteps? e = some steps)
    (he : e.Satisfies after a) : AllSatisfy after a steps := by
  have hform := he.form
  obtain ⟨-, rfl⟩ | heq | ⟨first, heq, -⟩ := relativeSteps?_cases h
  · exact ⟨he, trivial⟩
  · rw [heq] at hform
    exact hform
  · rw [heq] at hform
    exact hform.2

theorem extendRoot_yields (hscope : fits a scope) {root : Expr} {es : List Expr} {e : Expr}
    (hroot : root.Satisfies after a) (h : AllSatisfy after a es) (he : e.Satisfies after a) :
    (extendRoot opt scope root es e).Yields fun p => ∀ path, p = some path →
    path.Satisfies after a := by
  have hremaining := remainingRoot_yields H hopt hscope hroot h
  unfold extendRoot
  split
  · exact .map (hremaining.mono fun path hpath _ hp => Option.some.inj hp ▸ hpath)
  · split
    · next steps hsteps =>
      refine hremaining.bind fun head hhead => .map ?_
      have hpath : (optimizePath scope (some head) steps e.location).Yields
          (Expr.Satisfies after a) :=
        optimizePath_some_yields H hscope hhead (relativeSteps?_satisfies hsteps he)
      exact hpath.mono fun path hpath _ hp => Option.some.inj hp ▸ hpath
    · exact .pure nofun

theorem liftPredicate_yields (hscope : fits a scope) {root : Expr} {es : List Expr} {last : Expr}
    (hroot : root.Satisfies after a) (h : AllSatisfy after a es) (hlast : last.Satisfies after a) :
    (liftPredicate opt scope root es last).Yields fun p => ∀ e, p = some e →
    e.Satisfies after a := by
  unfold liftPredicate
  refine (extendRoot_yields H hopt hscope hroot h hlast).bind fun p hp => ?_
  split
  · exact .pure fun e he => hp e he
  · split
    · refine (remainingRoot_yields H hopt hscope hroot h).bind fun head hhead => .map ?_
      have hmap : (optimizeMap scope [head, last] last.location).Yields (Expr.Satisfies after a) :=
        optimizeMap_yields H ⟨hhead, hlast, trivial⟩
      exact hmap.mono fun e he _ hp => Option.some.inj hp ▸ he
    · exact .pure nofun

theorem simplifyFilter_yields (hscope : fits a scope) {root : Expr} {es : List Expr}
    (hroot : root.Satisfies after a) (h : AllSatisfy after a es) :
    (simplifyFilter opt scope root es).Yields fun p => ∀ e, p = some e → e.Satisfies after a := by
  unfold simplifyFilter
  split
  · exact .pure nofun
  · next last hgetLast =>
    have hlast := allSatisfy_iff.mp h last (List.mem_of_getLast? hgetLast)
    have hform := hlast.form
    have lift := liftPredicate_yields H hopt hscope hroot h hlast
    have made {make : Compile Expr} (hmake : make.Yields (Expr.Satisfies after a)) :
        (some <$> make).Yields fun p => ∀ e, p = some e → e.Satisfies after a :=
      .map (hmake.mono fun e he _ hp => Option.some.inj hp ▸ he)
    split
    · exact .pure nofun
    · split
      · next op left right heq =>
        rw [heq] at hform
        split
        · exact lift
        · refine (extendRoot_yields H hopt hscope hroot h hform.1).bind fun lifted hlifted => ?_
          cases lifted with
          | some left => exact made (optimizeComparison_yields H (hlifted left rfl) hform.2)
          | none => exact lift
      · next input query heq =>
        rw [heq] at hform
        split
        · exact lift
        · refine (extendRoot_yields H hopt hscope hroot h hform.1).bind fun lifted hlifted => ?_
          cases lifted with
          | some input => exact made (optimizeSearch_yields H (hlifted input rfl) hform.2)
          | none => exact lift
      · exact lift

end Predicates

end TreeQuery
