import TreeQuery.Proofs.Filter.Canonical
import TreeQuery.Proofs.Filter.Lengths
import TreeQuery.Proofs.Filter.Merging
import TreeQuery.Proofs.Filter.Narrowing
/-!
# Optimized predicates keep the same items

All rules for predicates together: a list of predicates that is as regular as the rules take it to
be keeps the same items of its host as what it becomes does of the host that is left, and none if
nothing is left.
-/

namespace TreeQuery

variable {call : Caller} {env : Env} {es : List Expr} {items kept : List Item}

/-- Whether predicates keep these of the items, one after the other. -/
def FilteredTo (call : Caller) (env : Env) (es : List Expr) (items kept : List Item) : Prop :=
  ∃ scored, (filterInTurn call env (items.map fun item => (item, .zero)) es).Gives scored ∧
    itemsOf scored = kept

theorem itemsOf_unscored (items : List Item) :
    itemsOf (items.map fun item => (item, Number.zero)) = items := by
  simp [itemsOf, Function.comp_def]

theorem filteredTo_iff : FilteredTo call env es items kept ↔ KeptInTurn call env es items kept := by
  have hitems := itemsOf_unscored items
  constructor
  · rintro ⟨scored, hscored, rfl⟩
    exact hitems ▸ filterInTurn_kept es hscored
  · exact fun h => KeptInTurn.gives es (hitems.symm ▸ h)

theorem FilteredTo.eq_nil {input : StaticType} (h : FilteredTo call env es items kept)
    (hlength : items.length ≤ memoryLimit) (hsize : ∀ m, input.size = some m → items.length ≤ m)
    (htype : filteredType input es = none) : kept = [] := by
  obtain ⟨scored, hscored, rfl⟩ := h
  have hlimit : limitAll es input.size = some 0 := by simpa [filteredType, limitAll] using htype
  have hnone := (filterInTurn_limit es (by simpa using hlength) hscored).1 input.size
    (by simpa using hsize) 0 hlimit
  rw [List.eq_nil_of_length_eq_zero (Nat.le_zero.mp hnone)]
  rfl

theorem KeptInTurn.merge {merged : Option (List Expr)} (h : KeptInTurn call env es items kept)
    (hlength : items.length ≤ memoryLimit) (hmerged : (mergeWindows es).Gives merged) :
    KeptIfAny call env items kept merged := by
  have hkept :
      (itemsOf <$> filterInTurn call env (items.map fun item => (item, .zero)) es).Gives kept :=
    Logged.gives_map.mpr (filteredTo_iff.mpr h)
  have halike : KeepsAlike call env es (items.map fun item => (item, .zero)) merged :=
    mergeWindows_keepsAlike hmerged _
      (Nat.lt_of_le_of_lt (by simpa using hlength) (show memoryLimit < noEnd by decide))
  cases merged with
  | none => exact halike kept hkept
  | some fs => exact filteredTo_iff.mp (Logged.gives_map.mp (halike ▸ hkept))

theorem FilteredTo.delivers (hc : call.IgnoresFocus) {c d : Cursor}
    (h : FilteredTo call env es items kept) (hitems : (c.drain env.scoring).Gives items)
    (sound : ∀ item ∈ items, SoundOn call env es item) (hd : (c.filterWith call env es).Gives d) :
    Clean (d.deliveries env.scoring) ∧ delivered (d.deliveries env.scoring) = kept := by
  obtain ⟨scored, hscored, rfl⟩ := h
  by_cases hne : es = []
  · subst hne
    obtain rfl := Logged.gives_pure.mp hd
    obtain rfl := Logged.gives_pure.mp hscored
    obtain ⟨hdelivered, hclean, -⟩ := Cursor.drain_delivered hitems
    exact ⟨hclean, hdelivered.trans (itemsOf_unscored items).symm⟩
  obtain ⟨entries, hyields, hlimit, rfl⟩ := Cursor.drain_iff.mp hitems
  obtain ⟨chosen, hchosen, hentries⟩ := filterWith_yields hc hne hyields hlimit
    (fun entry hentry => sound _ (List.mem_map_of_mem hentry)) (by rwa [List.map_map] at hscored)
  obtain rfl := hchosen.unique hd
  rw [Cursor.Yields] at hentries
  refine ⟨hentries ▸ clean_map_ofItem _, ?_⟩
  rw [hentries, delivered_map_ofItem, meanScores, List.map_map]
  rfl

section

variable {depth callDepth : Nat} {scope : Scope} {host : Host} {K : Knowledge} {filtered : Filtered}

/-- The rules for a list of predicates: those for one predicate after the other, and then the
canonical list with its windows joined. What they leave there keeps the items of the host that the
former keep. -/
theorem optimizePredicates_stages (henv : env.Fits scope.visible K)
    (hhost : host.Annotated scope.visible K) (hann : AnnotatedAll scope.visible (host.offers K) es)
    (hfree : filterFreeAll es = true) (hregular : host.Regular es)
    (h : (optimizePredicates (optimizerWithin depth) scope host es).Gives filtered) :
    filtered = ⟨host, es, filteredType host.type es⟩ ∨
    ∃ simplified result, (simplifyPredicates (optimizerWithin depth)
      (scope.withFocus (some host.type.item)) host.type (es.any Expr.isPositional) host es).Gives
      (filtered.host, simplified) ∧
      (result = none ∧ filtered.type = none ∨
        result = some filtered.predicates ∧
        filtered.type = filteredType filtered.host.type filtered.predicates) ∧
      ∀ callDepth items kept, (∀ item ∈ items, filtered.host.Has (callWithin callDepth) env item) →
      items.length ≤ memoryLimit →
        (filtered.host.isSingleton = true → items.length ≤ 1) →
        KeptInTurn (callWithin callDepth) env simplified items kept →
        KeptIfAny (callWithin callDepth) env items kept result := by
  obtain rfl | ⟨host', simplified, hsimplify, h⟩ := optimizePredicates_cases h
  · exact .inl rfl
  let inner := scope.withFocus (some host.type.item)
  have henv : env.Fits inner.visible K := henv
  have hhost : host.Annotated inner.visible K := hhost
  have hscope : (host.offers K).Refines inner.known := hhost.refines_known scope
  have hparts : ∀ e, WrittenIn es e → ∀ part ∈ e.form.parts, WrittenIn es part :=
    fun _ he _ => he.part
  have hformed := simplifyPredicates_formed hparts hsimplify hregular.inlined fun e he =>
    Form.formed_of_written (.of_mem he)
  have hnarrows : host.Narrows host' := simplifyPredicates_narrows hsimplify
  have hsimplified := simplifyPredicates_annotated
    (optimizerWithin_sound depth) hsimplify hhost hscope hann
  have hhost' := hnarrows.annotated hhost
  have hwritten : ∀ e, Moved (WrittenIn es) e → ∀ part ∈ e.form.parts, Moved (WrittenIn es) part :=
    fun _ he => he.part hparts
  have hwrittenFree : ∀ e, Moved (WrittenIn es) e → e.filterFree = true :=
    fun _ he => he.filterFree fun _ h => h.filterFree hfree
  have htwins : TwinsAlike (Moved (WrittenIn es)) :=
    TwinsAlike.moved fun e e' he he' => hregular.twins e e' (.inr he) (.inr he')
  have hempty : PredicateList.Proper inner.visible (host'.offers K)
      (Moved (WrittenIn es)) ⟨[], false⟩ :=
    ⟨fun _ _ h => absurd h List.not_mem_nil, fun _ h => absurd h List.not_mem_nil, trivial⟩
  have hcanonical {callDepth : Nat} {items kept : List Item} {result : Option (List Expr)}
      (hitems : ∀ item ∈ items, host'.Has (callWithin callDepth) env item)
      (hlength : items.length ≤ memoryLimit)
      (hsingleton : host'.isSingleton = true → items.length ≤ 1)
      (hkept : KeptInTurn (callWithin callDepth) env simplified items kept)
      (h : (canonicalList (optimizerWithin depth) inner host'
        ⟨[], false⟩ simplified).Gives result) :
      KeptIfAny (callWithin callDepth) env items kept result :=
    canonicalList_keeps (callWithin_ignoresFocus callDepth) (callWithin_ignoresPlace callDepth)
      (callWithin_sound callDepth) henv
      (fun item hitem => (hitems item hitem).holds (callWithin_sound callDepth) henv hhost') hlength
        hwritten hwrittenFree
      (fun _ _ he => he.at?) htwins hsingleton h hempty
        (fun e he => (hformed e he).moved) hsimplified hkept
  obtain ⟨hlist | ⟨joined, hlist, hmerge⟩, rfl⟩ | ⟨joined, merged, hlist, hmerge, rfl⟩ := h
  · exact .inr ⟨simplified, none, hsimplify, .inl ⟨rfl, rfl⟩,
        fun _ _ _ hitems hlength hsingleton hkept =>
      hcanonical hitems hlength hsingleton hkept hlist⟩
  · exact .inr ⟨simplified, none, hsimplify, .inl ⟨rfl, rfl⟩,
        fun _ _ _ hitems hlength hsingleton hkept =>
      KeptInTurn.merge (hcanonical hitems hlength hsingleton hkept hlist) hlength hmerge⟩
  · exact .inr ⟨simplified, some merged, hsimplify, .inr ⟨rfl, rfl⟩,
        fun _ _ _ hitems hlength hsingleton hkept =>
      KeptInTurn.merge (hcanonical hitems hlength hsingleton hkept hlist) hlength hmerge⟩

/-- Where no predicate is positional, what becomes of predicates that hold of an item of the root,
wherever it stands, holds of it likewise. -/
theorem optimizePredicates_steady {root : Expr} {item : Item} (henv : env.Fits scope.visible K)
    (hroot : root.Annotated scope.visible K) (hann : AnnotatedAll scope.visible (root.Offers K) es)
    (hfree : filterFreeAll es = true) (hregular : (Host.root root).Regular es)
    (hes : ∀ e ∈ es, e.isPositional = false)
    (h : (optimizePredicates (optimizerWithin depth) scope (.root root) es).Gives filtered)
    (hitem : (Host.root root).Has (callWithin callDepth) env item)
    (hsteady : Steady (callWithin callDepth) env memoryLimit es item true) :
    filtered.type ≠ none ∧
    Steady (callWithin callDepth) env memoryLimit filtered.predicates item true := by
  have hhost : (Host.root root).Annotated scope.visible K := hroot
  have hcall := callWithin_sound callDepth
  -- one copy of the item shows that the static type of what is left is not that of nothing
  have hone : 1 ≤ memoryLimit := by decide
  have hsize (m : Nat) (hm : (Host.root root).type.size = some m) : [item].length ≤ m := by
    obtain ⟨c, hc, hmem⟩ := hitem
    have hfits := Expr.iterate_fits hcall henv hroot hc _ hroot.infers env.scoring
    exact (List.length_pos_of_mem hmem).trans_le (hfits.counts.le_size m hm).1
  have hnonempty {es : List Expr}
    (hsteady : Steady (callWithin callDepth) env memoryLimit es item true) :
      filteredType (Host.root root).type es ≠ none := by
    intro hnone
    have hkept := filteredTo_iff.mpr (KeptInTurn.replicate_iff.mpr hsteady 1 hone)
    exact absurd (hkept.eq_nil hone hsize hnone) (by simp)
  obtain rfl | ⟨simplified, result, hsimplify, hresult, hkeeps⟩ :=
    optimizePredicates_stages henv hhost hann hfree hregular h
  · exact ⟨hnonempty hsteady, hsteady⟩
  have hpositional : es.any Expr.isPositional = false :=
    List.any_eq_false.mpr fun e he => by simp [hes e he]
  rw [hpositional] at hsimplify
  have henv : env.Fits (scope.withFocus (some root.type.item)).visible K := henv
  have hhost : (Host.root root).Annotated (scope.withFocus (some root.type.item)).visible K := hroot
  have hnarrows := simplifyPredicates_narrows hsimplify
  obtain ⟨hhas, hsimplified⟩ | ⟨-, hnever⟩ :=
    simplifyPredicates_steady (callWithin_ignoresFocus callDepth)
    (callWithin_ignoresPlace callDepth) hcall henv le_rfl (by decide) hsimplify
    ⟨hhost, fun _ hr => congrArg Host.type hr,
      fun _ hitem => hitem.isInstance hcall henv hhost, hregular⟩
    (fun _ => id) hann hitem hsteady
  swap
  · cases hnever
  obtain ⟨host, predicates, t⟩ := filtered
  cases host with
  | step axis test => cases hnarrows
  | root r =>
    obtain rfl : root = r := hnarrows
    have hcopies (n : Nat) (hle : n ≤ memoryLimit) :
        KeptIfAny (callWithin callDepth) env (List.replicate n item)
          (List.replicate n item) result := by
      refine hkeeps _ _ _ (fun x hx => List.eq_of_mem_replicate hx ▸ hitem)
        (by rwa [List.length_replicate]) (fun h => (by cases h)) ?_
      exact KeptInTurn.replicate_iff.mpr hsimplified n hle
    obtain ⟨rfl, -⟩ | ⟨rfl, htype⟩ := hresult
    · exact absurd (hcopies 1 hone) (by simp [KeptIfAny])
    · have hpredicates := KeptInTurn.replicate_iff.mp hcopies
      exact ⟨fun hnone => hnonempty hpredicates (htype.symm.trans hnone), hpredicates⟩

/-- What becomes of predicates keeps the same items in turn, of a host that may have become
narrower. -/
theorem optimizePredicates_inTurn (henv : env.Fits scope.visible K)
    (hhost : host.Annotated scope.visible K) (hann : AnnotatedAll scope.visible (host.offers K) es)
    (hfree : filterFreeAll es = true) (hregular : host.Regular es)
    (h : (optimizePredicates (optimizerWithin depth) scope host es).Gives filtered)
    (hitems : host.Delivers (callWithin callDepth) env items) (hlength : items.length ≤ memoryLimit)
    (hkept : KeptInTurn (callWithin callDepth) env es items kept) :
    ∃ items', filtered.host.Delivers (callWithin callDepth) env items' ∧
    items'.length ≤ items.length ∧
      (filtered.type = none → kept = []) ∧
      ∀ t, filtered.type = some t →
      KeptInTurn (callWithin callDepth) env filtered.predicates items' kept := by
  have hcall := callWithin_sound callDepth
  obtain rfl | ⟨simplified, result, hsimplify, hresult, hkeeps⟩ :=
    optimizePredicates_stages henv hhost hann hfree hregular h
  · exact ⟨items, hitems, le_rfl, (filteredTo_iff.mpr hkept).eq_nil hlength fun m hm =>
      ((hitems.fits hcall henv hhost).counts.le_size m hm).1, fun _ _ => hkept⟩
  have henv : env.Fits (scope.withFocus (some host.type.item)).visible K := henv
  have hhost : host.Annotated (scope.withFocus (some host.type.item)).visible K := hhost
  obtain ⟨items', hitems', hle, hkept'⟩ :=
    simplifyPredicates_keeps (callWithin_ignoresFocus callDepth)
    (callWithin_ignoresPlace callDepth) hcall henv hhost hann hregular hitems
      hlength hsimplify hkept
  have hlength' := hle.trans hlength
  have hhost' := (simplifyPredicates_narrows hsimplify).annotated hhost
  have hlast := hkeeps callDepth items' kept (fun item hitem => hitems'.has_iff.mpr hitem) hlength'
    hitems'.length_le_one hkept'
  refine ⟨items', hitems', hle, ?_⟩
  obtain ⟨rfl, htype⟩ | ⟨rfl, htype⟩ := hresult
  · exact ⟨fun _ => hlast, fun t ht => by simp [htype] at ht⟩
  · exact ⟨fun hnone => (filteredTo_iff.mpr hlast).eq_nil hlength'
      (fun m hm => ((hitems'.fits hcall henv hhost').counts.le_size m hm).1) (htype ▸ hnone),
        fun _ _ => hlast⟩

end

/-- Optimized predicates keep the same items of the host that is left, and predicates of which
nothing is left keep none. -/
theorem optimizePredicates_keeps {depth callDepth : Nat} {scope : Scope} {host : Host}
    {K : Knowledge} {filtered : Filtered} (henv : env.Fits scope.visible K)
    (hhost : host.Annotated scope.visible K) (hann : AnnotatedAll scope.visible (host.offers K) es)
    (hfree : filterFreeAll es = true) (hregular : host.Regular es)
    (h : (optimizePredicates (optimizerWithin depth) scope host es).Gives filtered)
    (hitems : host.Delivers (callWithin callDepth) env items) (hlength : items.length ≤ memoryLimit)
    (hkept : FilteredTo (callWithin callDepth) env es items kept) :
    (filtered.type = none → kept = []) ∧ ∀ t, filtered.type = some t → ∃ items',
      filtered.host.Delivers (callWithin callDepth) env items' ∧
        FilteredTo (callWithin callDepth) env filtered.predicates items' kept := by
  obtain ⟨items', hitems', -, hnone, hsome⟩ :=
    optimizePredicates_inTurn henv hhost hann hfree hregular h hitems hlength
      (filteredTo_iff.mp hkept)
  exact ⟨hnone, fun t ht => ⟨items', hitems', filteredTo_iff.mpr (hsome t ht)⟩⟩

/-- Of the children those are elements that a self step finds, and one of these has children. -/
theorem optimizePredicates_keeps_parents :
    let self : Expr :=
    ⟨.step .self ⟨some .element, none⟩ [], stepType .self ⟨some .element, none⟩, none⟩
    let child : Expr := ⟨.step .child ⟨none, none⟩ [], stepType .child ⟨none, none⟩, none⟩
    let parent : Expr := .call .exists [child]
    let elements : Host := .step .child ⟨some .element, none⟩
    let forest := (((((Forest.empty false).push? ⟨.text, none, "a", [], [], []⟩).bind
      (·.push? ⟨.element, none, "", [], [], [0]⟩)).bind (·.push?
        ⟨.text, none, "b", [], [], []⟩)).bind
      (·.push? ⟨.element, none, "", [], [], [1, 2]⟩)).getD (.empty false)
    let env := Env.ofContext { forest, item := some (.node 3) }
    (optimizePredicates (optimizerWithin 3) ⟨true, none, []⟩
      (.step .child ⟨none, none⟩) [self, parent]).Gives
        ⟨elements, [child], some (.of (.kind .element) .zeroOrMore)⟩ ∧
      FilteredTo (callWithin 0) env [self, parent] [.node 1, .node 2] [.node 1] ∧
      ∃ items', elements.Delivers (callWithin 0) env items' ∧
        FilteredTo (callWithin 0) env [child] items' [.node 1] := by
  intro self child parent elements forest env
  have optimized :
    (optimizePredicates (optimizerWithin 3) ⟨true, none, []⟩
    (.step .child ⟨none, none⟩) [self, parent]).Gives
      ⟨elements, [child], some (.of (.kind .element) .zeroOrMore)⟩ := rfl
  have delivered : (Host.step .child ⟨none, none⟩).Delivers
      (callWithin 0) env [.node 1, .node 2] := by
    refine ⟨3, rfl, congrArg (List.map Item.node) (?_ : [1, 2] = _)⟩
    decide +kernel
  have filtered : FilteredTo (callWithin 0) env [self, parent] [.node 1, .node 2] ([1].map .node) :=
    Logged.gives_map.mp (gives_nodes (by decide +kernel))
  have fits : env.Fits [] fun _ => False :=
    { globals := fun _ _ h => (by cases h), locals := fun _ _ h => (by cases h),
      focus := fun _ hitem => Option.some.inj hitem ▸ ⟨fun _ h => h.elim, trivial⟩ }
  have annotated : AnnotatedAll [] ((Host.step .child ⟨none, none⟩).offers fun _ => False)
      [self, parent] :=
    ⟨⟨rfl, trivial⟩, annotated_call ⟨⟨rfl, trivial⟩, trivial⟩, trivial⟩
  have written : ∀ e, WrittenIn [self, parent] e → e ∈ [self, parent, child] := fun e he =>
    he.hereditary (by simp) (by simp [self, parent, child, Expr.call, Expr.of, Form.parts])
  have other {e : Expr} (he : WrittenIn [self, parent] e) :
    (∀ style op left right, e.form ≠ .comparison style op left right) ∧
      ∀ first steps, e.form ≠ .path first steps := by
    obtain rfl | rfl | rfl : e = self ∨ e = parent ∨ e = child := by simpa using written e he
    all_goals refine ⟨fun _ _ _ _ h => ?_, fun _ _ h => ?_⟩ <;> cases h
  have regular : (Host.step .child ⟨none, none⟩).Regular [self, parent] := by
    refine ⟨fun e he _ _ _ h => absurd h ((other (.of_mem he)).1 _ _ _ _),
      fun _ _ h => (by cases h), ?_,
      fun e he _ _ h => absurd h ((other he).2 _ _), fun e he _ _ h => absurd h ((other he).2 _ _)⟩
    rintro e e' (hroot | he) (hroot | he') hsame
    · cases hroot
    · cases hroot
    · cases hroot
    · obtain rfl | rfl | rfl : e = self ∨ e = parent ∨ e = child := by simpa using written e he
      all_goals
        obtain rfl | rfl | rfl : e' = self ∨ e' = parent ∨ e' = child := by
          simpa using written e' he'
        all_goals first | rfl | cases hsame
  have root : (Host.step .child ⟨none, none⟩).Annotated [] fun _ => False := trivial
  exact ⟨optimized, filtered,
    (optimizePredicates_keeps fits root annotated rfl regular optimized delivered
      (by decide) filtered).2 _ rfl⟩

theorem filteredTo_none
    (h : (filterInTurn call env (items.map fun item => (item, .zero)) es).outcome.toOption.map
      List.length = some 0) : FilteredTo call env es items [] := by
  obtain ⟨scored, hscored, hlength⟩ := Option.map_eq_some_iff.mp h
  exact ⟨scored, Logged.gives_iff_toOption.mpr hscored, List.eq_nil_of_length_eq_zero hlength ▸ rfl⟩

/-- With a literal in the place of the context item a path loses the branch that made it drop the
node listed twice: the original predicate counts one node, the optimized one two. -/
theorem optimizePredicates_loses :
    let n : Variable := { name := .plain "n", declared := some ⟨.node, .one⟩ }
    let s : Variable := { name := .plain "s", declared := some ⟨.node, .zeroOrMore⟩ }
    let m : Variable := { name := .plain "m", declared := some ⟨.node, .zeroOrMore⟩ }
    let one : Expr := .ofInt 1
    let node (v : Variable) : Expr := .of (.reference v)
    let counted (root : Expr) : Expr :=
      .of (.comparison .general .eq (.of (.call .count [.of (.path root [node m])])) one)
    let written : Expr := counted (.of (.conditional
      (.of (.comparison .general .eq .contextItem one)) (node n) (node s)))
    let scope : Scope := ⟨true, none, [n, s, m]⟩
    let forest := (((Forest.empty false).push? ⟨.text, none, "a", [], [], []⟩).bind
      (·.push? ⟨.element, none, "", [], [], [0]⟩)).getD (.empty false)
    let env : Env := { Env.ofContext { forest } with
      locals := [(n.name, [.node 0]), (s.name, [.node 0, .node 0]), (m.name, [.node 1, .node 1])] }
    let item : Item := .atomic (.integer 1)
    ∃ compiled filtered t, (compilePredicates (optimizerWithin 5)
      (scope.withFocus (some one.type.item)) [written]).Gives compiled ∧
      (optimizePredicates (optimizerWithin 5) scope (.root one) compiled).Gives filtered ∧
        filtered.type = some t ∧
      (Host.root one).Delivers (callWithin 0) env [item] ∧
        FilteredTo (callWithin 0) env compiled [item] [item] ∧
      filtered.host.Delivers (callWithin 0) env [item] ∧
        FilteredTo (callWithin 0) env filtered.predicates [item] [] := by
  intro n s m one node counted written scope forest env item
  have delivered : one.Delivers (callWithin 0) env ([.integer 1].map .atomic) :=
    Expr.delivers_literal rfl
  have sorted : documentOrder forest [.node 1, .node 1] = .ok [.node 1] := by
    have hsort : forest.sortNodes [1, 1] = .ok [1] := by decide +kernel
    show (forest.sortNodes [1, 1]).map (fun ordered => ordered.map Item.node) = _
    rw [hsort]
    rfl
  refine ⟨_, _, _, rfl, rfl, rfl, delivered, ?_, delivered, ?_⟩
  · -- `decide` does not get through the sort of the written path, so its result is put in by hand
    refine filteredTo_iff.mpr ⟨[item], .keep ?_ .nil, rfl⟩
    refine (Expr.Delivers.holds_boolean (?_ : Expr.Delivers _ _ _ [.atomic (.boolean true)])).mpr
      rfl
    refine ⟨.ofList [.atomic (.boolean true)], ?_, Cursor.clean_ofList _, Cursor.delivered_ofList _⟩
    simp only [Expr.iterate, Form.iterate, Logged.gives_locate, Logged.gives_bind, Logged.gives_map,
      Logged.gives_lift]
    refine ⟨[.atomic (.integer 1)], ?_, _, rfl, _, rfl, _, rfl, _, rfl, rfl⟩
    simp only [Expr.value, Form.iterate, callBuiltin, Logged.gives_locate, Logged.gives_bind,
      Logged.gives_pure]
    refine ⟨_, ⟨.ofList [.node 1], ?_, 1, rfl, rfl⟩, rfl⟩
    show (Cursor.ofList <$> (Logged.ofOutcome (documentOrder forest [.node 1, .node 1]) :
      Run (List Item))).Gives (Cursor.ofList [.node 1])
    exact Logged.gives_map.mpr ⟨_, Logged.gives_ofOutcome.mpr sorted, rfl⟩
  · exact filteredTo_none (by decide +kernel)

end TreeQuery
