import TreeQuery.Proofs.Filter.Unwrapping
/-!
# Predicates that are self steps

A self step as a predicate asks whether the item in focus is a node that passes its test and its
predicates (`holds_selfStep`). Where no predicate of a list is positional, the test may move to the
host and the predicates of the self step take its place: the host has fewer items then, and of these
the predicates keep the same (`simplifyPredicates_keeps`).
-/

namespace TreeQuery

variable {call : Caller} {env : Env} {e e' : Expr} {b : Bool}

/-! ### Self steps -/

/-- The verdict on the only item of a cursor decides whether anything is selected. -/
theorem DecidesAt.of_select {judge : Judgement} {scoring : Bool} {position : Nat} {n : NodeId}
    (h : DecidesAt position (((Cursor.ofList [.node n]).select judge 0).deliveries scoring) b) :
    judge.Decides scoring 1 (.node n) b := by
  simp only [Cursor.ofList, Cursor.ofPlain, Cursor.finished, Cursor.select, Cursor.deliveries,
    Reply.select] at h
  cases hverdict : (judge scoring (0 + 1) (.node n)).outcome with
  | error f =>
    simp only [hverdict, Reply.deliveries] at h
    cases h
  | ok verdict =>
    refine ⟨verdict, hverdict, ?_⟩
    cases verdict with
    | none =>
      simp only [hverdict, Reply.deliveries] at h
      cases h
      rfl
    | some score =>
      simp only [hverdict, Reply.deliveries] at h
      cases h
      rfl

section

variable {most : Nat} {item : Item} {es : List Expr}

theorem HoldAll.steady (hc : call.IgnoresFocus) {position : Nat} : {es : List Expr} → {b : Bool} →
    (∀ e ∈ es, e.isPositional = false) → SoundOn call env es item →
    HoldAll call (env.focusOn none env.scoring position item) es b → Steady call env most es item b
  | [], _, _, _, h => h
  | e :: es, b, hes, sound, h => by
    have first {b : Bool}
      (h : e.Holds call (env.focusOn none env.scoring position item) b) (env' : Env)
        (henv' : env.Seats most item env') : e.Holds call env' b := by
      obtain ⟨size, position', rfl, -⟩ := henv'
      exact h.anywhere hc (hes e List.mem_cons_self) (sound e List.mem_cons_self _ _)
    exact h.imp (fun ⟨htrue, hrest⟩ =>
      ⟨first htrue, hrest.steady hc (fun e he => hes e (List.mem_cons_of_mem _ he)) sound.tail⟩)
      fun ⟨hfalse, hb⟩ => ⟨first hfalse, hb⟩

theorem holds_selfStep (hc : call.IgnoresFocus) {test : NodeTest} {inner : List Expr} {env' : Env}
    (hinner : inner.any Expr.isPositional = false) (henv' : env.Seats most item env')
    (sound : item.passes env.forest test = true → SoundOn call env inner item)
    (hform : e.form = .step .self test inner) (h : e.Holds call env' b) :
    item.passes env.forest test = true ∧ Steady call env most inner item b ∨
    item.passes env.forest test = false ∧ b = false := by
  obtain ⟨form, τ, l⟩ := e
  subst hform
  obtain ⟨c, hgives, hdecides⟩ := Expr.holds_iff.mp h
  obtain ⟨size, position, rfl, -⟩ := henv'
  have hfocus : (env.focusOn (some size) env.scoring position item).contextItem = pure item := rfl
  simp only [Expr.iterate, Form.iterate, Logged.gives_locate, hfocus, Logged.pure_bind] at hgives
  cases item with
  | node n =>
    obtain ⟨kept, hkept, hgives⟩ := Logged.gives_bind.mp hgives
    obtain rfl : kept = c := Logged.gives_pure.mp hgives
    cases hpasses : test.passes env.forest n with
    | false =>
      have hnone : ((env.forest.axisNodes n .self).filter (test.passes env.forest)).map
          Item.node = [] := by
        simp [Forest.axisNodes, hpasses]
      have hkept' : (Cursor.filterWith call _ inner (.ofList [])).Gives kept := hnone ▸ hkept
      obtain ⟨scoring', hsublist, -⟩ := Cursor.filterBy_counts hkept' env.scoring
      rw [Cursor.delivered_ofList] at hsublist
      exact .inr ⟨hpasses, hdecides.eq_false (List.sublist_nil.mp hsublist)⟩
    | true =>
      have hself : ((env.forest.axisNodes n .self).filter (test.passes env.forest)).map
          Item.node = [.node n] := by
        simp [Forest.axisNodes, hpasses]
      have hkept' : (Cursor.filterWith call _ inner (.ofList [.node n])).Gives kept := hself ▸ hkept
      refine .inl ⟨hpasses, ?_⟩
      by_cases hne : inner = []
      · subst hne
        obtain rfl := Logged.gives_pure.mp hkept'
        exact hdecides.unique (.node : DecidesAt _ ((Cursor.ofList [.node n]).deliveries _) true)
      · rw [filterWith_eq_of_steady hne hinner] at hkept'
        obtain rfl := Logged.gives_pure.mp hkept'
        obtain ⟨verdict, hverdict, rfl⟩ := hdecides.of_select
        exact (meanTest_holds inner hverdict).steady hc (by simpa using hinner) (sound hpasses)
  | atomic v => exact absurd hgives Logged.gives_failWith
  | function f => exact absurd hgives Logged.gives_failWith

end

section

variable {opt : Optimizer} {scope : Scope} {host : Host} {t : StaticType} {K : Knowledge}
    {most : Nat} {item : Item}
  {es all : List Expr} {result : Host × List Expr} (hc : call.IgnoresFocus)
    (hplace : call.IgnoresPlace) (hcall : call.Sound)
  (henv : env.Fits scope.visible K)

include hc hcall henv

theorem holds_of_selfStep? {test : NodeTest} {inner : List Expr}
    (hself : selfStep? e = some (test, inner)) (hinner : inner.any Expr.isPositional = false)
    {L : Knowledge} (hann : e.Annotated scope.visible L) {env' : Env}
    (henv' : env.Seats most item env') (h : e.Holds call env' b) :
    item.passes env.forest test = true ∧ Steady call env most inner item b ∨
    item.passes env.forest test = false ∧ b = false := by
  have sound (hpasses : item.passes env.forest test = true) : SoundOn call env inner item := by
    intro d hd size position
    cases item with
    | node n =>
      have hoffers : (StepOffers .self test).Holds env.forest (.node n) ∧ Item.Good (.node n) :=
        ⟨fun t ht => ht env.forest n n (List.mem_singleton_self n) hpasses, trivial⟩
      exact (annotatedAll_iff.mp (selfStep?_annotated hself hann) d hd).soundAt hcall
        (henv.focusOn hoffers)
    | atomic v => cases hpasses
    | function f => cases hpasses
  obtain hform | ⟨τ, l, hform⟩ := selfStep?_cases hself
  · exact holds_selfStep hc hinner henv' sound hform h
  · obtain ⟨form, τ', l'⟩ := e
    subst hform
    have hstep := relativePath_single_supplants
      (P := fun _ => True) hc rfl item trivial env' henv' b h
    exact holds_selfStep hc hinner henv' sound rfl hstep

end

theorem Item.passes_of_isKindTest {forest : Forest} {test : NodeTest} {item : Item}
    (hkind : test.isKindTest = true) (h : item.isInstance forest test.itemType = true) :
    item.passes forest test = true := by
  obtain ⟨kind, name⟩ := test
  obtain rfl : name = none := Option.isNone_iff_eq_none.mp hkind
  obtain ⟨n, rfl⟩ : ∃ n, item = .node n := Item.node_of_isInstance (by cases kind <;> rfl) h
  cases kind with
  | none => rfl
  | some k =>
    have hkind : k = forest.kind n := beq_iff_eq.mp h
    simp [Item.passes, NodeTest.passes, hkind]

/-! ### One predicate -/

/-- What is known of a host while its predicates are simplified: its items are of the type that it
had in the beginning. -/
structure Host.Prepared (call : Caller) (env : Env) (scope : Scope) (K : Knowledge) (t : StaticType)
    (all : List Expr) (host : Host) : Prop where
  annotated : host.Annotated scope.visible K
  type : ∀ r, host = .root r → t = r.type
  item : ∀ item, host.Has call env item → item.isInstance env.forest t.item = true
  regular : host.Regular all

/-- How the predicates of a host judge an item: as false if it is not one of the host's. -/
def Host.Judges (call : Caller) (env : Env) (most : Nat) (host : Host) (es : List Expr)
    (item : Item) (b : Bool) : Prop :=
  host.Has call env item ∧ Steady call env most es item b ∨ ¬host.Has call env item ∧ b = false

section

variable {opt : Optimizer} {scope : Scope} {host host' : Host} {t : StaticType} {K : Knowledge}
    {most : Nat} {item : Item}
  {es all : List Expr} {result : Host × List Expr}

theorem Host.Prepared.narrows (h : host.Prepared call env scope K t all) (hn : host.Narrows host') :
    host'.Prepared call env scope K t all where
  annotated := hn.annotated h.annotated
  type r hr := by
    subst hr
    cases host with
    | root e => exact h.type r (congrArg Host.root hn)
    | step axis test => cases hn
  item item hitem := h.item item (hn.has hitem)
  regular := h.regular.narrows hn

variable (hc : call.IgnoresFocus) (hplace : call.IgnoresPlace) (hcall : call.Sound)
    (henv : env.Fits scope.visible K)
  (hhost : host.Prepared call env scope K t all) (hmost : most ≤ memoryLimit)

include hc hplace hcall henv hhost hmost

/-- A predicate becomes one with its verdicts, or is left out if it is always true. Where no
predicate is positional it may also become predicates of a narrower host, which judge as it does. -/
theorem simplifyPredicate_judges {positional : Bool} (he : e ∈ all)
    (hann : e.Annotated scope.visible (host.offers K))
    (h : (simplifyPredicate opt scope t positional host e).Gives result) :
    result.1 = host ∧ ((∃ e', result.2 = [e'] ∧ Supplants call env most (host.Has call env) e e') ∨
        result.2 = [] ∧ ∀ item, host.Has call env item → ∀ env', env.Seats most item env' →
        ∀ b, e.Holds call env' b → b = true) ∨
      positional = false ∧ ∀ item, host.Has call env item → ∀ env', env.Seats most item env' →
      ∀ b, e.Holds call env' b →
        result.1.Judges call env most result.2 item b := by
  have hparts : ∀ e, WrittenIn all e → ∀ part ∈ e.form.parts, WrittenIn all part :=
    fun _ h _ => h.part
  have hformed : e.form.Formed (WrittenIn all) := Form.formed_of_written (.of_mem he)
  obtain ⟨hitem, hnode, rfl⟩ | ⟨test, changed, htest, hchanged, h⟩ := simplifyPredicate_cases h
  · refine .inl ⟨rfl, .inr ⟨rfl, fun item hhas env' henv' b hb => ?_⟩⟩
    obtain ⟨n, rfl⟩ := Item.node_of_isInstance hnode (hhost.item item hhas)
    exact (Expr.delivers_contextItem hitem henv'.focus_item).holds_node.mp hb
  have htestFormed := optimizePositionTest_formed htest hformed
  have htestAnnotated := optimizePositionTest_annotated htest hann
  have hsupplants : Supplants call env most (host.Has call env) e changed :=
    (optimizePositionTest_supplants hmost (hhost.regular.unequal e he) htest).trans
      (unwrapMap_supplants hc hplace hcall henv hhost.annotated hhost.type hparts
        hhost.regular.twins htestFormed htestAnnotated
        hchanged)
  have hchangedFormed := unwrapMap_formed hparts hchanged htestFormed
  have hchangedAnnotated := unwrapMap_annotated hchanged htestAnnotated
  obtain ⟨axis, own, self, both, inner, hpositional, hinner, rfl, hself, hboth, rfl⟩ |
    ⟨self, hself, hkind, hinstance, rfl⟩ | h := h
  · refine .inr ⟨hpositional, fun item hhas env' henv' b hb => ?_⟩
    rw [Host.Judges, hhas.narrow hboth, Bool.not_eq_true]
    exact holds_of_selfStep? hc hcall henv hself hinner hchangedAnnotated henv'
      (hsupplants item hhas env' henv' b hb)
  · refine .inl ⟨rfl, .inr ⟨rfl, fun item hhas env' henv' b hb => ?_⟩⟩
    have hpasses : item.passes env.forest self = true :=
      Item.passes_of_isKindTest hkind
        (Item.isInstance_of_instanceOf (hhost.item item hhas) hinstance)
    obtain ⟨-, hsteady⟩ | ⟨hfails, -⟩ :=
      holds_of_selfStep? hc hcall henv hself (List.any_nil ..) hchangedAnnotated henv'
      (hsupplants item hhas env' henv' b hb)
    · exact hsteady
    · rw [hpasses] at hfails
      cases hfails
  · obtain ⟨e', rfl, hfinished⟩ : ∃ e', result = (host, [e']) ∧
        Supplants call env most (host.Has call env) changed e' :=
      finishPredicate_supplants hc hplace hcall henv hhost.annotated hhost.type hparts
        hhost.regular.twins hchangedFormed
        hchangedAnnotated hhost.regular.single hhost.regular.flat hhost.regular.inlined h
    exact .inl ⟨rfl, .inl ⟨e', rfl, hsupplants.trans hfinished⟩⟩

/-! ### All predicates -/

/-- Where a predicate is positional the host stays as it is, and the predicates that are left keep
the same in turn. -/
theorem simplifyPredicates_inTurn : {es : List Expr} → {result : Host × List Expr} →
    (simplifyPredicates opt scope t true host es).Gives result → (∀ e ∈ es, e ∈ all) →
    AnnotatedAll scope.visible (host.offers K) es → {items kept : List Item} →
    (∀ item ∈ items, host.Has call env item) →
    items.length ≤ most → KeptInTurn call env es items kept → result.1 = host ∧
    KeptInTurn call env result.2 items kept
  | [], result, h, _, _, items, kept, _, _, hkept => by
    obtain rfl := Logged.gives_pure.mp h
    exact ⟨rfl, hkept⟩
  | e :: es, result, h, hall, hann, items, kept, hitems, hlength, hkept => by
    rw [AnnotatedAll] at hann
    simp only [simplifyPredicates, Logged.gives_bind, Logged.gives_pure] at h
    obtain ⟨⟨host', simplified⟩, hfirst, ⟨host'', rest⟩, hrest, rfl⟩ := h
    obtain ⟨passed, hpassed, hkept⟩ := (keptInTurn_cons e es).mp hkept
    obtain ⟨hsame, hcases⟩ | ⟨hnever, -⟩ :=
      simplifyPredicate_judges hc hplace hcall henv hhost hmost
      (hall e List.mem_cons_self) hann.1 hfirst
    swap
    · cases hnever
    obtain rfl : host = host' := hsame.symm
    have hsub := hpassed.sublist
    obtain ⟨rfl, hlast⟩ :=
      simplifyPredicates_inTurn hrest (fun e he => hall e (List.mem_cons_of_mem _ he)) hann.2
      (fun item hitem => hitems item (hsub.subset hitem)) (hsub.length_le.trans hlength) hkept
    refine ⟨rfl, (keptInTurn_append simplified).mpr ⟨passed, ?_, hlast⟩⟩
    obtain ⟨e', rfl, hsupplants⟩ | ⟨rfl, htrue⟩ := hcases
    · exact hpassed.supplant (hsupplants.anti hlength hitems)
    · exact hpassed.expand fun item hitem env' henv' b hb =>
        htrue item (hitems item hitem) env' (henv'.mono hlength) b hb

/-- Where no predicate is positional, predicates that judge an item alike everywhere give way to
ones that judge it as they do. -/
theorem simplifyPredicate_steady (hone : 1 ≤ most) (he : e ∈ all)
    (hann : e.Annotated scope.visible (host.offers K))
    (h : (simplifyPredicate opt scope t false host e).Gives result) (hitem : host.Has call env item)
    (hb : ∀ env', env.Seats most item env' → e.Holds call env' b) :
    result.1.Judges call env most result.2 item b := by
  have hseat : env.Seats most item (env.focusOn (some 1) env.scoring 1 item) :=
    ⟨1, 1, rfl, le_rfl, le_rfl, hone⟩
  obtain ⟨hsame, ⟨e', hlist, hsupplants⟩ | ⟨hlist, htrue⟩⟩ | ⟨-, hjudges⟩ :=
    simplifyPredicate_judges hc hplace hcall henv hhost hmost he hann h
  · rw [hsame, hlist]
    refine .inl ⟨hitem, ?_⟩
    have hb' (env' : Env) (henv' : env.Seats most item env') : e'.Holds call env' b :=
      hsupplants item hitem env' henv' b (hb env' henv')
    cases b with
    | true => exact .inl ⟨hb', rfl⟩
    | false => exact .inr ⟨hb', rfl⟩
  · rw [hsame, hlist]
    exact .inl ⟨hitem, htrue item hitem _ hseat b (hb _ hseat)⟩
  · exact hjudges item hitem _ hseat b (hb _ hseat)

omit hhost in
theorem simplifyPredicates_steady (hone : 1 ≤ most)
    (h : (simplifyPredicates opt scope t false host es).Gives result)
    (hhost : host.Prepared call env scope K t all) (hall : ∀ e ∈ es, e ∈ all)
    (hann : AnnotatedAll scope.visible (host.offers K) es) (hitem : host.Has call env item)
    (hb : Steady call env most es item b) : result.1.Judges call env most result.2 item b := by
  induction es generalizing host result b with
  | nil =>
    obtain rfl := Logged.gives_pure.mp h
    exact .inl ⟨hitem, hb⟩
  | cons e es ih =>
    rw [AnnotatedAll] at hann
    simp only [simplifyPredicates, Logged.gives_bind, Logged.gives_pure] at h
    obtain ⟨⟨host', simplified⟩, hfirst, ⟨host'', rest⟩, hrest, rfl⟩ := h
    have he := hall e List.mem_cons_self
    have hnarrows : host.Narrows host' := simplifyPredicate_narrows hfirst
    have hann' := AnnotatedAll.refine hnarrows.offers hann.2
    have hnarrows' : host'.Narrows host'' := simplifyPredicates_narrows hrest
    have hsteady {b' : Bool} (hb' : ∀ env', env.Seats most item env' → e.Holds call env' b') :=
      simplifyPredicate_steady hc hplace hcall henv hhost hmost hone he hann.1 hfirst hitem hb'
    obtain ⟨htrue, hb⟩ | ⟨hfalse, rfl⟩ := hb
    · obtain ⟨hitem', hsimplified⟩ | ⟨-, hnever⟩ := hsteady htrue
      · have hlast := ih hrest (hhost.narrows hnarrows)
          (fun e he => hall e (List.mem_cons_of_mem _ he)) hann' hitem' hb
        exact hlast.imp_left
          (And.imp_right fun hrest => (steady_append simplified).mpr (.inl ⟨hsimplified, hrest⟩))
      · cases hnever
    · by_cases hitem'' : host''.Has call env item
      · obtain ⟨-, hsimplified⟩ | ⟨hnot, -⟩ := hsteady hfalse
        · exact .inl ⟨hitem'', (steady_append simplified).mpr (.inr ⟨hsimplified, rfl⟩)⟩
        · exact absurd (hnarrows'.has hitem'') hnot
      · exact .inr ⟨hitem'', rfl⟩

end

/-- What the rules for one predicate after the other leave keeps the same items, of a host that may
have become narrower. -/
theorem simplifyPredicates_keeps {opt : Optimizer} {scope : Scope} {host : Host} {K : Knowledge}
    {es : List Expr} {result : Host × List Expr} {items kept : List Item} (hc : call.IgnoresFocus)
    (hplace : call.IgnoresPlace) (hcall : call.Sound) (henv : env.Fits scope.visible K)
    (hhost : host.Annotated scope.visible K) (hann : AnnotatedAll scope.visible (host.offers K) es)
    (hregular : host.Regular es) (hitems : host.Delivers call env items)
    (hlength : items.length ≤ memoryLimit)
    (h : (simplifyPredicates opt scope host.type (es.any Expr.isPositional) host es).Gives result)
    (hkept : KeptInTurn call env es items kept) :
    ∃ items', result.1.Delivers call env items' ∧ items'.length ≤ items.length ∧
    KeptInTurn call env result.2 items' kept := by
  have hprepared : host.Prepared call env scope K host.type es :=
    ⟨hhost, fun _ hr => congrArg Host.type hr,
      fun _ hitem => hitem.isInstance hcall henv hhost, hregular⟩
  cases hpositional : es.any Expr.isPositional with
  | true =>
    rw [hpositional] at h
    obtain ⟨hsame, hkept⟩ := simplifyPredicates_inTurn hc hplace hcall henv hprepared hlength h
      (fun _ => id) hann
      (fun item hitem => hitems.has_iff.mpr hitem) le_rfl hkept
    exact ⟨items, hsame ▸ hitems, le_rfl, hkept⟩
  | false =>
    rw [hpositional] at h
    obtain ⟨p, hnarrow⟩ := (simplifyPredicates_narrows h).delivers hitems
    have sound (item : Item) (hitem : item ∈ items) : SoundOn call env es item := fun e he _ _ =>
      (annotatedAll_iff.mp hann e he).soundAt hcall
        (henv.focusOn ((hitems.has_iff.mpr hitem).holds hcall henv hhost))
    have hsteady : Sifted (fun _ => Steady call env items.length es) 0 items kept :=
      hkept.steady hc (by simpa using hpositional) sound
    have hsifted : Sifted (fun _ => Steady call env items.length result.2) 0
        (items.filter p) kept := by
      refine hsteady.filter fun item hitem b hb => ?_
      have hhas : result.1.Has call env item ↔ p item = true := by
        rw [hnarrow.has_iff, List.mem_filter, and_iff_right hitem]
      have hjudges := simplifyPredicates_steady hc hplace hcall henv hlength
        (List.length_pos_of_mem hitem) h hprepared
        (fun _ => id) hann (hitems.has_iff.mpr hitem) hb
      rwa [Host.Judges, hhas, Bool.not_eq_true] at hjudges
    exact ⟨_, hnarrow, List.length_filter_le p items,
      KeptInTurn.of_steady _ hsifted (List.length_filter_le p items)⟩

end TreeQuery
