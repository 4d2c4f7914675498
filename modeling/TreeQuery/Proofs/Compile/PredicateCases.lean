import TreeQuery.Proofs.Compile.Cases
/-!
# What the rules for predicates can give

The cases for one predicate, for the canonical list and for the list as a whole.
-/

namespace TreeQuery

variable {opt : Optimizer} {scope : Scope} {host : Host} {t : StaticType} {e e' : Expr}

/-! ### Hosts -/

theorem bothDemands_some {α : Type} [DecidableEq α] {a b c : Option α}
    (h : bothDemands a b = some c) {x : α} :
    (a = some x → c = some x) ∧ (b = some x → c = some x) := by
  cases a <;> cases b <;> simp_all [bothDemands]

theorem NodeTest.passes_of_intersect {a b t : NodeTest} (h : a.intersect b = some t) {f : Forest}
    {n : NodeId} (hn : t.passes f n = true) : a.passes f n = true ∧ b.passes f n = true := by
  obtain ⟨kind, hkind, name, hname, rfl⟩ : ∃ kind, bothDemands a.kind b.kind = some kind ∧
      ∃ name, bothDemands a.name b.name = some name ∧ ⟨kind, name⟩ = t := by
    simpa [NodeTest.intersect, Option.bind_eq_some_iff] using h
  have hk {k : NodeKind} := bothDemands_some hkind (x := k)
  have hm {m : ExpandedName} := bothDemands_some hname (x := m)
  simp only [NodeTest.passes, Bool.and_eq_true] at hn ⊢
  refine ⟨⟨?_, ?_⟩, ?_, ?_⟩
  · cases ha : a.kind with
    | none => rfl
    | some k => simpa [hk.1 ha] using hn.1
  · cases ha : a.name with
    | none => rfl
    | some m => simpa [hm.1 ha] using hn.2
  · cases hb : b.kind with
    | none => rfl
    | some k => simpa [hk.2 hb] using hn.1
  · cases hb : b.name with
    | none => rfl
    | some m => simpa [hm.2 hb] using hn.2

namespace Host

/-- Whether the second host is the first, save for a narrower node test. -/
def Narrows : Host → Host → Prop
  | .root e, .root e' => e = e'
  | .step axis test, .step axis' test' =>
    axis = axis' ∧ ∀ f n, test'.passes f n = true → test.passes f n = true
  | _, _ => False

variable {h h' h'' : Host}

theorem Narrows.refl (h : Host) : h.Narrows h := by
  cases h
  · rfl
  · exact ⟨rfl, fun _ _ => id⟩

theorem Narrows.trans (hn : h.Narrows h') (hn' : h'.Narrows h'') : h.Narrows h'' := by
  cases h <;> cases h' <;> cases h'' <;> simp only [Narrows] at *
  · exact hn.trans hn'
  · exact ⟨hn.1.trans hn'.1, fun f n hp => hn.2 f n (hn'.2 f n hp)⟩

end Host

/-! ### One predicate -/

theorem optimizePositionTest_cases (h : (optimizePositionTest e).Gives e') :
    e' = e ∨ ∃ style op left right place, e.form = .comparison style op left right ∧
      ((∃ test, recognizePosition op left right = some test ∧
        e' = (Expr.ofPositionTest test).at? place) ∨
        comparesWithLast op left right = true ∧ e' = (Expr.call .last []).at? place) := by
  unfold optimizePositionTest at h
  split at h
  · next style op left right hform =>
    split at h
    · next test htest =>
        exact .inr ⟨_, _, _, _, _, hform, .inl ⟨test, htest, (replace_gives.mp h).symm⟩⟩
    · rw [Logged.gives_ite, Logged.gives_pure] at h
      obtain ⟨hlast, h⟩ | ⟨-, rfl⟩ := h
      · exact .inr ⟨_, _, _, _, _, hform, .inr ⟨hlast, (replace_gives.mp h).symm⟩⟩
      · exact .inl rfl
  · exact .inl (Logged.gives_pure.mp h).symm

theorem unwrapMap_cases (h : (unwrapMap scope host t e).Gives e') :
    e' = e ∨ ∃ first second rest, e.form = .map (first :: second :: rest) ∧
    host.givesItem t first = true ∧
      second.dependsOn .position = false ∧
      (rest = [] ∧ e' = second ∨ (optimizeMap scope (second :: rest) e.location).Gives e') := by
  unfold unwrapMap at h
  split at h
  · next first second rest hform =>
    simp only [Logged.gives_ite, Logged.gives_pure, Bool.and_eq_true, Bool.not_eq_true'] at h
    obtain ⟨⟨hitem, hposition⟩, h⟩ | ⟨-, rfl⟩ := h
    · refine .inr ⟨first, second, rest, hform, hitem, hposition, ?_⟩
      split at h
      · exact .inl ⟨rfl, (Logged.gives_pure.mp h).symm⟩
      · exact .inr h
    · exact .inl rfl
  · exact .inl (Logged.gives_pure.mp h).symm

theorem unwrapPath_cases (h : (unwrapPath scope host t e).Gives e') :
    e' = e ∨ ∃ first steps, e.form = .path first steps ∧ host.givesItem t first = true ∧
      (∀ s ∈ steps, s.isStep = true ∨ s.dependsOn .position = false) ∧
      (steps = [e'] ∨ (optimizePath scope none steps e.location).Gives e') := by
  unfold unwrapPath at h
  split at h
  · next first steps hform =>
    simp only [Logged.gives_ite, Bool.and_eq_true, List.all_eq_true, Bool.or_eq_true,
      Bool.not_eq_true'] at h
    obtain ⟨⟨⟨-, hitem⟩, hsteps⟩, h⟩ | ⟨-, h⟩ := h
    · refine .inr ⟨first, steps, hform, hitem, hsteps, ?_⟩
      split at h
      · rw [Logged.gives_ite, Logged.gives_pure] at h
        obtain ⟨-, rfl⟩ | ⟨-, h⟩ := h
        · exact .inl rfl
        · exact .inr h
      · exact .inr h
    · exact .inl (Logged.gives_pure.mp h).symm
  · exact .inl (Logged.gives_pure.mp h).symm

theorem inlineRoot_cases (h : (inlineRoot opt scope host e).Gives e') :
    e' = e ∨ ∃ root v, host = .root root ∧ root.form = .literal [v] ∧
    (opt.compile scope (e.replaceContext root)).Gives e' := by
  unfold inlineRoot at h
  split at h
  · next root =>
    split at h
    · next v hliteral =>
      split at h
      · next inlined hinlined =>
        unfold Expr.inlineContext? at hinlined
        obtain ⟨-, hinlined⟩ := Option.ite_none_right_eq_some.mp hinlined
        exact .inr ⟨root, v, rfl, hliteral, Option.some.inj hinlined ▸ h⟩
      · exact .inl (Logged.gives_pure.mp h).symm
    · exact .inl (Logged.gives_pure.mp h).symm
  · exact .inl (Logged.gives_pure.mp h).symm

theorem finishPredicate_cases {old : Expr} {result : Host × List Expr}
    (h : (finishPredicate opt scope t host old e).Gives result) :
    ∃ unwrapped inlined place, (unwrapPath scope host t e).Gives unwrapped ∧
    (inlineRoot opt scope host unwrapped).Gives inlined ∧
      result = (host, [inlined.at? place]) := by
  simp only [finishPredicate, Logged.gives_bind, Logged.gives_pure] at h
  obtain ⟨unwrapped, hunwrapped, inlined, hinlined, replaced, hreplaced, rfl⟩ := h
  obtain rfl := replace_gives.mp hreplaced
  exact ⟨unwrapped, inlined, _, hunwrapped, hinlined, rfl⟩

theorem selfStep?_cases {test : NodeTest} {inner : List Expr}
    (h : selfStep? e = some (test, inner)) :
    e.form = .step .self test inner ∨
    ∃ τ l, e.form = .relativePath [⟨.step .self test inner, τ, l⟩] := by
  unfold selfStep? at h
  split at h
  · next test' predicates hform =>
    obtain ⟨rfl, rfl⟩ := Prod.mk.inj (Option.some.inj h)
    exact .inl hform
  · next test' predicates τ l hform =>
    obtain ⟨rfl, rfl⟩ := Prod.mk.inj (Option.some.inj h)
    exact .inr ⟨τ, l, hform⟩
  · cases h

/-- What becomes of a predicate: nothing if every item passes it, the predicates of a step of which
the test was merged into the host's, where no predicate of the list is positional, or a predicate
again. -/
theorem simplifyPredicate_cases {positional : Bool} {result : Host × List Expr}
    (h : (simplifyPredicate opt scope t positional host e).Gives result) :
    (e.isContextItem = true ∧ t.item.isNode = true ∧ result = (host, [])) ∨
    ∃ test changed, (optimizePositionTest e).Gives test ∧
    (unwrapMap scope host t test).Gives changed ∧
    ((∃ axis own self both inner, positional = false ∧ inner.any Expr.isPositional = false ∧
      host = .step axis own ∧
        selfStep? changed = some (self, inner) ∧ own.intersect self = some both ∧
        result = (.step axis both, inner)) ∨
      (∃ self, selfStep? changed = some (self, []) ∧ self.isKindTest = true ∧
        t.item.instanceOf self.itemType = true ∧
        result = (host, [])) ∨
      (finishPredicate opt scope t host e changed).Gives result) := by
  simp only [simplifyPredicate, Logged.gives_ite, Logged.gives_bind, gives_remark,
    Logged.gives_pure, Bool.and_eq_true] at h
  obtain ⟨⟨hitem, hnode⟩, -, -, rfl⟩ | ⟨-, test, htest, changed, hchanged, h⟩ := h
  · exact .inl ⟨hitem, hnode, rfl⟩
  refine .inr ⟨test, changed, htest, hchanged, ?_⟩
  split at h
  · exact .inr (.inr h)
  next self inner hself =>
  rw [Logged.gives_ite, Bool.not_eq_true] at h
  obtain ⟨-, h⟩ | ⟨hinner, h⟩ := h
  · exact .inr (.inr h)
  split at h
  · next merged hmerged =>
    simp only [Logged.gives_bind, gives_remark, Logged.gives_pure] at h
    obtain ⟨-, -, rfl⟩ := h
    cases host with
    | root r => simp at hmerged
    | step axis own =>
      simp only [Option.ite_none_left_eq_some, Option.map_eq_some_iff, Bool.not_eq_true] at hmerged
      obtain ⟨hpositional, both, hboth, rfl⟩ := hmerged
      exact .inl ⟨axis, own, self, both, inner, hpositional, hinner, rfl, hself, hboth, rfl⟩
  · simp only [Logged.gives_ite, Logged.gives_bind, gives_remark, Logged.gives_pure,
      List.isEmpty_iff] at h
    obtain ⟨⟨⟨hkind, rfl⟩, hinstance⟩, -, -, rfl⟩ | ⟨-, h⟩ := h
    · exact .inr (.inl ⟨self, hself, hkind, hinstance, rfl⟩)
    · exact .inr (.inr h)

theorem simplifyPredicate_narrows {positional : Bool} {result : Host × List Expr}
    (h : (simplifyPredicate opt scope t positional host e).Gives result) :
    host.Narrows result.1 := by
  obtain ⟨-, -, rfl⟩ | ⟨-, changed, -, -, h⟩ := simplifyPredicate_cases h
  · exact .refl host
  obtain ⟨axis, own, self, both, inner, -, -, rfl, -, hboth, rfl⟩ | ⟨-, -, -, -, rfl⟩ | h := h
  · exact ⟨rfl, fun f n hn => (NodeTest.passes_of_intersect hboth hn).1⟩
  · exact .refl host
  · obtain ⟨-, -, -, -, -, rfl⟩ := finishPredicate_cases h
    exact .refl host

theorem simplifyPredicates_narrows {positional : Bool} : {es : List Expr} → {host : Host} →
    {result : Host × List Expr} → (simplifyPredicates opt scope t positional host es).Gives result →
    host.Narrows result.1
  | [], host, result, h => Logged.gives_pure.mp h ▸ .refl host
  | e :: es, host, result, h => by
    simp only [simplifyPredicates, Logged.gives_bind, Logged.gives_pure] at h
    obtain ⟨⟨host', simplified⟩, hfirst, ⟨host'', rest⟩, hrest, rfl⟩ := h
    have hnarrows : host'.Narrows host'' := simplifyPredicates_narrows hrest
    exact (simplifyPredicate_narrows hfirst).trans hnarrows

/-! ### The canonical list -/

/-- A predicate is added to a list, or left out: if it is constantly true, or if it is the same as
one in a list where no predicate is positional. -/
theorem PredicateList.add_cases {list list' : PredicateList} (h : (list.add e).Gives list') :
    list'.positional = (list.positional || e.isPositional) ∧
      (list'.kept = list.kept ∧
        (e.isBool true = true ∨ list'.positional = false ∧ ∃ f ∈ list.kept, f.same e = true) ∨
        list'.kept = list.kept ++ [e]) := by
  simp only [PredicateList.add, Logged.gives_ite, Logged.gives_bind, gives_remark,
    Logged.gives_pure] at h
  obtain ⟨htrue, -, -, rfl⟩ | ⟨-, ⟨-, rfl⟩ | ⟨hsame, -, -, rfl⟩⟩ := h
  · exact ⟨rfl, .inl ⟨rfl, .inl htrue⟩⟩
  · exact ⟨rfl, .inr rfl⟩
  · simp only [Bool.or_eq_true, not_or, Bool.not_eq_true, Bool.not_eq_true', Bool.not_eq_false,
      List.any_eq_true] at hsame
    exact ⟨rfl, .inl ⟨rfl, .inr ⟨by simpa using hsame.1.1, hsame.2⟩⟩⟩

theorem constantPredicate_cases (h : constantPredicate e = .ok e') :
    e' = e ∨ (∃ x, e.number? = some x ∧
      e' = (Expr.ofPositionTest (Window.atNumber x)).at? e.location) ∨
      ∃ b, e.number? = none ∧ e.constantTruth = .ok b ∧ e' = (Expr.ofBool b).at? e.location := by
  unfold constantPredicate at h
  split at h
  · next x hx => exact .inr (.inl ⟨x, hx, (Except.ok.inj h).symm⟩)
  · next hnumber =>
    split at h
    · obtain ⟨b, hb, rfl⟩ := map_eq_ok.mp h
      exact .inr (.inr ⟨b, hnumber, hb, rfl⟩)
    · exact .inl (Except.ok.inj h).symm

theorem resolveSingleton_cases (host : Host) (e : Expr) :
    resolveSingleton host e = e ∨ ∃ w, e.window? = some w ∧ host.isSingleton = true ∧
      resolveSingleton host e = (Expr.ofBool (w.contains 1)).at? e.location := by
  unfold resolveSingleton
  split
  · next w hw =>
    split
    · next hsingleton => exact .inr ⟨w, hw, hsingleton, rfl⟩
    · exact .inl rfl
  · exact .inl rfl

theorem splittable?_cases {operands : List Expr} (h : splittable? e = some operands) :
    e.form = .conjunction operands ∧ e.dependsOn .position = false := by
  unfold splittable? at h
  split at h
  · next operands' hform =>
    obtain ⟨hposition, h⟩ := Option.ite_none_left_eq_some.mp h
    exact ⟨Option.some.inj h ▸ hform, Bool.eq_false_iff.mpr hposition⟩
  · cases h

/-- What a predicate in canonical form comes from: the operands of a conjunction, or a constant. -/
theorem canonicalPredicate_cases {list : PredicateList} {result : PredicateList × Expr}
    (h : (canonicalPredicate opt scope list e).Gives result) :
    (∃ operands, splittable? e = some operands ∧
      (splitOperands opt scope e.location list operands).Gives result) ∨
      ∃ e', constantPredicate e = .ok e' ∧ result = (list, e') := by
  unfold canonicalPredicate at h
  split at h
  · next operands hsplit =>
    simp only [Logged.gives_bind, gives_remark, true_and, exists_const] at h
    exact .inl ⟨operands, hsplit, h⟩
  · simp only [Logged.gives_bind, Logged.gives_lift, Logged.gives_pure] at h
    obtain ⟨e', he', rfl⟩ := h
    exact .inr ⟨e', he', rfl⟩

/-! ### The list as a whole -/

/-- What becomes of predicates: they stay as they are, nothing passes them, or they are what is left
of the canonical list. -/
theorem optimizePredicates_cases {es : List Expr} {filtered : Filtered}
    (h : (optimizePredicates opt scope host es).Gives filtered) :
    filtered = ⟨host, es, filteredType host.type es⟩ ∨
    ∃ host' simplified, (simplifyPredicates opt (scope.withFocus (some host.type.item)) host.type
      (es.any Expr.isPositional) host es).Gives (host', simplified) ∧
      (((canonicalList opt (scope.withFocus (some host.type.item)) host' ⟨[], false⟩ simplified).Gives none ∨ ∃ kept,
          (canonicalList opt (scope.withFocus (some host.type.item)) host'
            ⟨[], false⟩ simplified).Gives (some kept) ∧
          (mergeWindows kept).Gives none) ∧ filtered = ⟨host', [], none⟩ ∨ ∃ kept merged,
        (canonicalList opt (scope.withFocus (some host.type.item)) host'
          ⟨[], false⟩ simplified).Gives (some kept) ∧
        (mergeWindows kept).Gives (some merged) ∧
        filtered = ⟨host', merged, filteredType host'.type merged⟩) := by
  simp only [optimizePredicates, Logged.gives_ite, Logged.gives_bind, Logged.gives_pure] at h
  obtain ⟨-, rfl⟩ | ⟨-, ⟨host', simplified⟩, hsimplify, canonical, hcanonical, h⟩ := h
  · exact .inl rfl
  refine .inr ⟨host', simplified, hsimplify, ?_⟩
  split at h
  · exact .inl ⟨.inl hcanonical, (Logged.gives_pure.mp h).symm⟩
  · obtain ⟨merged, hmerge, h⟩ := Logged.gives_bind.mp h
    split at h
    · exact .inl ⟨.inr ⟨_, hcanonical, hmerge⟩, (Logged.gives_pure.mp h).symm⟩
    · exact .inr ⟨_, _, hcanonical, hmerge, (Logged.gives_pure.mp h).symm⟩

/-- The host becomes narrower, and the static type is that of its items where the predicates leave
some. -/
theorem optimizePredicates_narrows {es : List Expr} {filtered : Filtered}
    (h : (optimizePredicates opt scope host es).Gives filtered) : host.Narrows filtered.host ∧
      ∀ t, filtered.type = some t →
      filteredType filtered.host.type filtered.predicates = some t := by
  obtain rfl | ⟨host', simplified, hsimplify, h⟩ := optimizePredicates_cases h
  · exact ⟨.refl host, fun _ => id⟩
  have hnarrows := simplifyPredicates_narrows hsimplify
  obtain ⟨-, rfl⟩ | ⟨-, -, -, -, rfl⟩ := h
  · exact ⟨hnarrows, by simp⟩
  · exact ⟨hnarrows, fun _ => id⟩

end TreeQuery
