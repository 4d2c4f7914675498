import TreeQuery.Proofs.Filter.Preservation
import TreeQuery.Proofs.Truth.Lifting
/-!
# What is left of the root

The last predicate of a filter is lifted out of the brackets onto what the other predicates leave of
the root, which are optimized once more for that. This delivers every item that they keep, if it
does not fail, and no other item if they have a verdict on all items of the root
(`remainingRoot_complete`, `remainingRoot_sound`). So lifting keeps the truth of the filter if no
step that is lifted asks for its position (`simplifyFilter_truth`); with such a step it may be
another one (`simplifyFilter_position`).
-/

namespace TreeQuery

theorem gives_filterWith {call : Caller} {env : Env} {root : Expr} {es : List Expr} {τ : StaticType}
    {l : Option Location} {c d : Cursor} (hc : (root.iterate call env).Gives c)
    (hd : (Expr.iterate call env ⟨.filter root es, τ, l⟩).Gives d) :
    (c.filterWith call env es).Gives d := by
  simp only [Expr.iterate, Form.iterate, Logged.gives_locate, Logged.gives_bind] at hd
  obtain ⟨c', hc', hd⟩ := hd
  exact hc.unique hc' ▸ hd

section

variable {depth callDepth : Nat} {scope : Scope} {env : Env} {K : Knowledge} {root head : Expr}
    {es : List Expr} {x : Item}
  (henv : env.Fits scope.visible K) (hroot : root.Annotated scope.visible K)
  (hann : AnnotatedAll scope.visible (root.Offers K) es) (hfree : filterFreeAll es = true)
  (hregular : (Host.root root).Regular es) (hes : ∀ e ∈ es, e.isPositional = false)

include henv hroot hann

/-- The predicates of a filter have sound static types on the items of its root. -/
theorem soundOn_of_annotated (hx : (Host.root root).Has (callWithin callDepth) env x) :
    SoundOn (callWithin callDepth) env es x := by
  have hcall := callWithin_sound callDepth
  have hhost : (Host.root root).Annotated scope.visible K := hroot
  exact fun e he _ _ => (annotatedAll_iff.mp hann e he).soundAt hcall
    (henv.focusOn (hx.holds hcall henv hhost))

include hfree hregular hes

/-- What is left of a filter delivers the items that its predicates keep. -/
theorem optimizeFilter_complete {l : Option Location}
    (h : (optimizeFilter (optimizerWithin depth) scope root es l).Gives head)
    (hx : Kept (callWithin callDepth) env root es x) : head.type.isZero = false ∧
      ∀ c d, (root.iterate (callWithin callDepth) env).Gives c →
      (delivered (c.deliveries env.scoring)).length ≤ memoryLimit →
        (head.iterate (callWithin callDepth) env).Gives d → Clean (d.deliveries env.scoring) →
        x ∈ delivered (d.deliveries env.scoring) := by
  have hc := callWithin_ignoresFocus callDepth
  have hcall := callWithin_sound callDepth
  obtain ⟨c, hgives, hdelivered, hholds⟩ := hx
  have hhas {x : Item} (hx : x ∈ delivered (c.deliveries env.scoring)) : (Host.root root).Has
      (callWithin callDepth) env x :=
    ⟨c, hgives, hx⟩
  have hnonzero : root.type.isZero = false :=
    (Expr.iterate_fits hcall henv hroot hgives _ hroot.infers env.scoring).isZero_eq_false
      hdelivered
  obtain ⟨⟨host, predicates, t⟩, hfiltered, h⟩ := optimizeFilter_cases h
  obtain ⟨hnarrows, hpredicates, htype⟩ :=
    optimizePredicates_annotated (optimizerWithin_sound depth) hfiltered hroot hann
  obtain ⟨hsome, hsteady⟩ := optimizePredicates_steady henv hroot hann hfree hregular hes hfiltered
    (hhas hdelivered)
    (hholds.steady hc hes (soundOn_of_annotated henv hroot hann (hhas hdelivered)))
  obtain ⟨t, rfl, ⟨-, rfl⟩ | rfl⟩ | ⟨hnone, -⟩ := h
  · exact ⟨hnonzero, fun _ d _ _ hd _ => hgives.unique hd ▸ hdelivered⟩
  · cases host with
    | step axis test => cases hnarrows
    | root r =>
      obtain rfl : root = r := hnarrows
      refine ⟨isZero_of_filteredType (htype t rfl) hnonzero,
        fun c' d hgives' hlength hd hclean => ?_⟩
      obtain rfl := hgives.unique hgives'
      have hinTurn :=
          (Cursor.filterWith_keeps hc (gives_filterWith hgives hd) hclean).inTurn fun y hy =>
        soundOn_of_annotated henv hroot hpredicates (hhas hy)
      exact hinTurn.mem hlength hsteady hdelivered
  · exact absurd hnone hsome

/-- What is left of a filter delivers no other items, if its predicates have a verdict on all items
of its root. -/
theorem optimizeFilter_sound {l : Option Location}
    (h : (optimizeFilter (optimizerWithin depth) scope root es l).Gives head) {c d : Cursor}
    (hgives : (root.iterate (callWithin callDepth) env).Gives c)
    (hclean : Clean (c.deliveries env.scoring))
    (hlength : (delivered (c.deliveries env.scoring)).length ≤ memoryLimit)
    (hjudged : ∀ x ∈ delivered (c.deliveries env.scoring),
      ∃ b, HoldAll (callWithin callDepth) (env.focusAlone x) es b)
    (hd : (head.iterate (callWithin callDepth) env).Gives d)
    (hx : x ∈ delivered (d.deliveries env.scoring)) :
    Kept (callWithin callDepth) env root es x := by
  have hc := callWithin_ignoresFocus callDepth
  have hsound (es : List Expr) (hann : AnnotatedAll scope.visible (root.Offers K) es) :
      ∀ y ∈ delivered (c.deliveries env.scoring), SoundOn (callWithin callDepth) env es y :=
    fun y hy => soundOn_of_annotated henv hroot hann ⟨c, hgives, hy⟩
  obtain ⟨kept, hsifted⟩ :=
    @Sifted.of_forall _ (fun y => HoldAll (callWithin callDepth) (env.focusAlone y) es) _ 0 hjudged
  suffices hmem : x ∈ kept by
    obtain ⟨_, -, -, hholds⟩ := hsifted.judged x hmem
    exact ⟨c, hgives, hsifted.sublist.subset hmem, hholds⟩
  obtain ⟨filtered, hfiltered, h⟩ := optimizeFilter_cases h
  obtain ⟨hnarrows, hpredicates, -⟩ :=
    optimizePredicates_annotated (optimizerWithin_sound depth) hfiltered hroot hann
  have hhost : (Host.root root).Annotated scope.visible K := hroot
  obtain ⟨items, hitems, -, -, hsome⟩ :=
    optimizePredicates_inTurn henv hhost hann hfree hregular hfiltered
    ⟨c, hgives, hclean, rfl⟩ hlength (keptInTurn_of_alone hc es hes (hsound es hann) hsifted)
  obtain ⟨host, predicates, type⟩ := filtered
  cases host with
  | step axis test => cases hnarrows
  | root r =>
    obtain rfl : root = r := hnarrows
    obtain rfl : items = delivered (c.deliveries env.scoring) :=
      hitems.unique ⟨c, hgives, hclean, rfl⟩
    obtain ⟨t, htype, hhead⟩ | ⟨-, place, rfl⟩ := h
    · have hkept := filteredTo_iff.mpr (hsome t htype)
      have hfiltered : (c.filterWith (callWithin callDepth) env predicates).Gives d := by
        obtain ⟨rfl, rfl⟩ | rfl := hhead
        · exact Logged.gives_pure.mpr (hgives.unique hd)
        · exact gives_filterWith hgives hd
      exact (hkept.delivers hc (Cursor.drain_iff_clean.mpr ⟨hclean, rfl, hlength⟩)
        (hsound predicates hpredicates) hfiltered).2 ▸ hx
    · obtain rfl : Cursor.ofList [] = d := by
        simpa [Expr.empty, Expr.literal, Expr.of, Expr.at?, Expr.iterate, Form.iterate] using hd
      simp at hx

/-! ### With the root itself where there is no other predicate -/

variable {last : Expr} (hlength : es ≠ [] → ∀ c, (root.iterate (callWithin callDepth) env).Gives c →
  (delivered (c.deliveries env.scoring)).length ≤ memoryLimit)

include hlength

theorem remainingRoot_complete
    (h : (remainingRoot (optimizerWithin depth) scope root (es ++ [last])).Gives head)
    (hx : Kept (callWithin callDepth) env root es x) : head.type.isZero = false ∧
      ∀ d, (head.iterate (callWithin callDepth) env).Gives d → Clean (d.deliveries env.scoring) →
        x ∈ delivered (d.deliveries env.scoring) := by
  obtain ⟨c, hgives, hdelivered, -⟩ := id hx
  obtain ⟨-, rfl⟩ | ⟨hes', h⟩ := remainingRoot_cases h
  · have hfits := Expr.iterate_fits (callWithin_sound callDepth) henv hroot hgives _
      hroot.infers env.scoring
    exact ⟨hfits.isZero_eq_false hdelivered, fun d hd _ => hgives.unique hd ▸ hdelivered⟩
  · rw [List.dropLast_concat] at h hes'
    obtain ⟨hnonzero, hcomplete⟩ := optimizeFilter_complete henv hroot hann hfree hregular hes h hx
    exact ⟨hnonzero, fun d => hcomplete c d hgives (hlength hes' c hgives)⟩

theorem remainingRoot_sound
    (h : (remainingRoot (optimizerWithin depth) scope root (es ++ [last])).Gives head)
    {c d : Cursor} (hgives : (root.iterate (callWithin callDepth) env).Gives c)
    (hclean : Clean (c.deliveries env.scoring))
    (hjudged : ∀ x ∈ delivered (c.deliveries env.scoring),
      ∃ b, HoldAll (callWithin callDepth) (env.focusAlone x) es b)
    (hd : (head.iterate (callWithin callDepth) env).Gives d)
    (hx : x ∈ delivered (d.deliveries env.scoring)) :
    Kept (callWithin callDepth) env root es x := by
  obtain ⟨hnone, rfl⟩ | ⟨hes', h⟩ := remainingRoot_cases h
  · rw [List.dropLast_concat] at hnone
    exact ⟨d, hd, hx, hnone ▸ rfl⟩
  · rw [List.dropLast_concat] at h hes'
    exact optimizeFilter_sound henv hroot hann hfree hregular hes h hgives hclean
      (hlength hes' c hgives) hjudged hd hx

end

/-! ### The items outside of the brackets -/

/-- The items that the other predicates keep, and those that what is left of the root delivers. -/
def Remains (depth callDepth : Nat) (scope : Scope) (env : Env) (root last : Expr) (es : List Expr)
    (x : Item) : Prop :=
  Kept (callWithin callDepth) env root es x ∨
    ∃ head d, (remainingRoot (optimizerWithin depth) scope root (es ++ [last])).Gives head ∧
      (head.iterate (callWithin callDepth) env).Gives d ∧ x ∈ delivered (d.deliveries env.scoring)

section

variable {depth callDepth : Nat} {scope : Scope} {env : Env} {K : Knowledge}
    {root last head : Expr} {es : List Expr} {x : Item}
  (henv : env.Fits scope.visible K) (hroot : root.Annotated scope.visible K)
  (hpredicates : AnnotatedAll scope.visible (root.Offers K) (es ++ [last]))

include henv hroot hpredicates

theorem Remains.holds (hx : Remains depth callDepth scope env root last es x) :
    (root.Offers K).Holds env.forest x ∧ x.Good := by
  have hsupplies {head : Expr} {d : Cursor} (hhead : head.Annotated scope.visible K)
      (hd : (head.iterate (callWithin callDepth) env).Gives d) :
      ∀ x ∈ delivered (d.deliveries env.scoring), (head.Offers K).Holds env.forest x ∧ x.Good :=
    hhead.supplies
      (fun τ hτ => Expr.iterate_fits (callWithin_sound callDepth) henv hhead hd τ hτ) env.scoring
  obtain ⟨c, hgives, hdelivered, -⟩ | ⟨head, d, hhead, hd, hdelivered⟩ := hx
  · exact hsupplies hroot hgives x hdelivered
  · obtain ⟨hann, hoffers⟩ :=
      remainingRoot_annotated (optimizerWithin_sound depth) hhead hroot hpredicates
    exact (hsupplies hann hd x hdelivered).imp_left fun hholds t ht => hholds t (hoffers t ht)

variable (hfree : filterFreeAll es = true) (hregular : (Host.root root).Regular es)
  (hes : ∀ e ∈ es, e.isPositional = false)
  (hlength : es ≠ [] → ∀ c, (root.iterate (callWithin callDepth) env).Gives c →
    (delivered (c.deliveries env.scoring)).length ≤ memoryLimit)

include hfree hregular hes hlength

/-- What is left of the root delivers these items and no others. -/
theorem remainingRoot_keeps
    (hhead : (remainingRoot (optimizerWithin depth) scope root (es ++ [last])).Gives head) :
    head.Keeps (callWithin callDepth) env
      (Remains depth callDepth scope env root last es) := by
  have hann : AnnotatedAll scope.visible (root.Offers K) es := by
    simpa only [List.dropLast_concat] using hpredicates.dropLast
  have hkept {x : Item} (hx : Kept (callWithin callDepth) env root es x) :=
    remainingRoot_complete henv hroot hann hfree hregular hes hlength hhead hx
  refine ⟨⟨fun d hd y hy => ⟨y, .inr ⟨head, d, hhead, hd, hy⟩, rfl⟩, ?_⟩, ?_⟩
  · rintro d hd hclean x (hx | ⟨head', d', hhead', hd', hdelivered⟩) y rfl
    · exact (hkept hx).2 d hd hclean
    · obtain rfl := hhead.unique hhead'
      exact hd.unique hd' ▸ hdelivered
  · rintro x (hx | ⟨head', d, hhead', hd, hdelivered⟩)
    · exact (hkept hx).1
    · obtain rfl := hhead.unique hhead'
      have hheadAnn :=
        (remainingRoot_annotated (optimizerWithin_sound depth) hhead hroot hpredicates).1
      have hfits := Expr.iterate_fits (callWithin_sound callDepth) henv hheadAnn hd _
        hheadAnn.infers env.scoring
      exact hfits.isZero_eq_false hdelivered

/-- Where the predicates have a verdict on all items of the root, what is left of it delivers no
items but those that they keep. -/
theorem Remains.kept {c : Cursor} (hgives : (root.iterate (callWithin callDepth) env).Gives c)
    (hclean : Clean (c.deliveries env.scoring))
    (hjudged : ∀ x ∈ delivered (c.deliveries env.scoring),
      ∃ b, HoldAll (callWithin callDepth) (env.focusAlone x) es b)
    (hx : Remains depth callDepth scope env root last es x) :
    Kept (callWithin callDepth) env root es x := by
  have hann : AnnotatedAll scope.visible (root.Offers K) es := by
    simpa only [List.dropLast_concat] using hpredicates.dropLast
  obtain hx | ⟨head, d, hhead, hd, hdelivered⟩ := hx
  · exact hx
  · exact remainingRoot_sound henv hroot hann hfree hregular hes hlength hhead hgives hclean
      hjudged hd hdelivered

end

/-- Lifting the last predicate out of a filter keeps its truth, if no step that is lifted asks for
its position: wherever both truth values are defined, they are equal. The other predicates, if there
are others, are such as the rules for predicates keep, without a filter among their operands, of
which the truth would be lifted likewise, and memory has room for the items of the root. -/
theorem simplifyFilter_truth {depth callDepth : Nat} {scope : Scope} {env : Env} {K : Knowledge}
    {root last e : Expr} {es : List Expr} (henv : env.Fits scope.visible K)
    (hroot : root.Annotated scope.visible K)
    (hpredicates : AnnotatedAll scope.visible (root.Offers K) (es ++ [last]))
    (hsteady : last.subject.Steady scope) (hfree : filterFreeAll es = true)
    (hregular : (Host.root root).Regular es)
    (hlength : es ≠ [] → ∀ c, (root.iterate (callWithin callDepth) env).Gives c →
      (delivered (c.deliveries env.scoring)).length ≤ memoryLimit)
    (h : (simplifyFilter (optimizerWithin depth) scope root (es ++ [last])).Gives (some e))
    {τ : StaticType} {l : Option Location} {b b' : Bool}
    (hb : (Expr.truth (callWithin callDepth) env ⟨.filter root (es ++ [last]), τ, l⟩).Gives b)
    (hb' : (e.truth (callWithin callDepth) env).Gives b') : b = b' := by
  have hc := callWithin_ignoresFocus callDepth
  have hcall := callWithin_sound callDepth
  obtain ⟨-, -, hnode, hpositional, -⟩ := simplifyFilter_cases h
  have hes : ∀ e ∈ es, e.isPositional = false := fun e he => by
    simpa using List.any_eq_false.mp hpositional e (List.mem_append_left _ he)
  have hinput (c : Cursor) (hgives : (root.iterate (callWithin callDepth) env).Gives c) :
      ∀ x ∈ delivered (c.deliveries env.scoring), (∃ n, x = .node n) ∧
        SoundOn (callWithin callDepth) env (es ++ [last]) x := by
    intro x hx
    have hinstance :=
      (Expr.iterate_fits hcall henv hroot hgives _ hroot.infers env.scoring).item x hx
    exact ⟨Item.node_of_isInstance hnode hinstance,
      soundOn_of_annotated henv hroot hpredicates ⟨c, hgives, hx⟩⟩
  obtain ⟨c, hgives, htrue, hfalse⟩ := Expr.filter_truth hc (by simp) hpositional hinput hb
  -- what is left of the root is the context item only if the root is, which was in focus then
  have hkeeps (head : Expr)
      (hhead : (remainingRoot (optimizerWithin depth) scope root (es ++ [last])).Gives head) :
      head.Keeps (callWithin callDepth) env (Remains depth callDepth scope env root last es) ∧
        (head.isContextItem = true → ∃ item, env.focus.item = some item) :=
    ⟨remainingRoot_keeps henv hroot hpredicates hfree hregular hes hlength hhead, fun hitem =>
      Expr.focus_of_contextItem hitem (remainingRoot_contextItem hhead hitem ▸ hgives)⟩
  obtain ⟨-, htells⟩ := simplifyFilter_tells hc (callWithin_ignoresPlace callDepth) hcall henv
    (fun _ hx => hx.holds henv hroot hpredicates) hkeeps (by simp)
    (annotatedAll_iff.mp hpredicates last (by simp)) hsteady h
  refine htells.truth_eq hb' (fun _ => .inl) htrue fun hb x hx => ?_
  obtain ⟨hclean, hfalse⟩ := hfalse hb
  have hjudged (y : Item) (hy : y ∈ delivered (c.deliveries env.scoring)) :
      ∃ b, HoldAll (callWithin callDepth) (env.focusAlone y) es b :=
    ((holdAll_append _ es).mp (hfalse y hy)).elim (fun h => ⟨true, h.1⟩) fun h => ⟨false, h.1⟩
  obtain ⟨c', hgives', hdelivered, hholds⟩ :=
    hx.kept henv hroot hpredicates hfree hregular hes hlength hgives hclean hjudged
  obtain rfl := hgives.unique hgives'
  exact ⟨hholds, hfalse x hdelivered⟩

/-- Whether a node that has children has one with a text is told by a comparison of the children of
all such nodes. -/
theorem simplifyFilter_truth_parents :
    let n : Variable := { name := .plain "n", declared := some ⟨.node, .zeroOrMore⟩ }
    let nodes : Expr := ⟨.reference n, .of .node .zeroOrMore, none⟩
    let child : Expr := ⟨.step .child ⟨none, none⟩ [], stepType .child ⟨none, none⟩, none⟩
    let compared (left : Expr) : Expr :=
      ⟨.comparison .general .eq left (.literal [.string "a"]), .boolean, none⟩
    let parents : Expr := ⟨.filter nodes [child], .of .node .zeroOrMore, none⟩
    let lifted : Expr := compared ⟨.path parents [child], .of .node .zeroOrMore, none⟩
    let forest := (((Forest.empty false).push? ⟨.text, none, "a", [], [], []⟩).bind
      (·.push? ⟨.element, none, "", [], [], [0]⟩)).getD (.empty false)
    let env : Env := { Env.ofContext { forest } with locals := [(n.name, [.node 0, .node 1])] }
    (simplifyFilter (optimizerWithin 3) ⟨true, none, [n]⟩ nodes [child, compared child]).Gives
      (some lifted) ∧ ∃ b b',
      (Expr.truth (callWithin 0) env ⟨.filter nodes [child, compared child], .of .node .zeroOrMore,
        none⟩).Gives b ∧
      (lifted.truth (callWithin 0) env).Gives b' ∧ b = b' := by
  intro n nodes child compared parents lifted forest env
  have filtered :
      (Expr.truth (callWithin 0) env ⟨.filter nodes [child, compared child], .of .node .zeroOrMore,
      none⟩).Gives true :=
    Logged.gives_iff_toOption.mpr (by decide +kernel)
  have told : (lifted.truth (callWithin 0) env).Gives true :=
    Logged.gives_iff_toOption.mpr (by decide +kernel)
  have simplified :
    (simplifyFilter (optimizerWithin 3) ⟨true, none, [n]⟩ nodes ([child] ++ [compared child])).Gives
    (some lifted) := rfl
  have fits : env.Fits [n] fun _ => False :=
    .single (.ofSeqType (by simp [n, Variable.type, Item.isInstance, ItemType.admitsKind])
      (by simp [Item.Good]) rfl)
  have root : nodes.Annotated [n] fun _ => False := ⟨rfl, rfl⟩
  have predicates : AnnotatedAll [n] (nodes.Offers fun _ => False) ([child] ++ [compared child]) :=
    ⟨⟨rfl, trivial⟩,
      ⟨⟨_, _, rfl, ⟨by decide, .inl rfl⟩, rfl⟩, ⟨rfl, trivial⟩, ⟨by decide, .inl rfl⟩,
      trivial⟩, trivial⟩
  have steady : (compared child).subject.Steady ⟨true, none, [n]⟩ := by
    intro steps hsteps s hs
    obtain rfl := Option.some.inj hsteps
    obtain rfl : s = child := List.mem_singleton.mp hs
    rfl
  have member : ∀ e, WrittenIn [child] e → e ∈ [child] :=
    fun e he => he.hereditary (by simp) (by simp [child, Form.parts])
  have written (e : Expr) (he : WrittenIn [child] e) : e = child :=
    List.mem_singleton.mp (member e he)
  have regular : (Host.root nodes).Regular [child] := by
    refine ⟨fun e he _ _ _ h => ?_, fun _ _ hroot h => ?_, ?_, fun e he _ _ h => ?_,
      fun e he _ _ h => ?_⟩
    · cases written e (.of_mem he) ▸ h
    · cases hroot
      cases h
    · rintro e e' (hroot | he) (hroot' | he') hsame
      · cases hroot
        cases hroot'
        rfl
      · cases hroot
        obtain rfl := written e' he'
        cases hsame
      · cases hroot'
        obtain rfl := written e he
        cases hsame
      · rw [written e he, written e' he']
    · cases written e he ▸ h
    · cases written e he ▸ h
  have short (c : Cursor) (hc : (nodes.iterate (callWithin 0) env).Gives c) :
      (delivered (c.deliveries env.scoring)).length ≤ memoryLimit := by
    obtain rfl : c = .ofList [.node 0, .node 1] := hc.unique rfl
    decide
  exact ⟨simplified, true, true, filtered, told,
    simplifyFilter_truth fits root predicates steady rfl regular
      (fun _ => short) simplified filtered told⟩

/-- A step that asks for its position finds the only item in focus in the brackets, and the second
of two outside of them. -/
theorem simplifyFilter_position :
    let n : Variable := { name := .plain "n", declared := some ⟨.node, .zeroOrMore⟩ }
    let nodes : Expr := ⟨.reference n, .of .node .zeroOrMore, none⟩
    let item : Expr := ⟨.contextItem, .of .node .one, none⟩
    let position : Expr := ⟨.call .position [], .of (.atomic .integer) .one, none⟩
    let compared (left : Expr) : Expr := ⟨.comparison .general .eq left (.ofInt 2), .boolean, none⟩
    let last : Expr := compared ⟨.path item [position], .of (.atomic .integer) .one, none⟩
    let lifted : Expr := compared ⟨.path nodes [position], .of (.atomic .integer) .zeroOrMore, none⟩
    let forest := (((Forest.empty false).push? ⟨.text, none, "a", [], [], []⟩).bind
      (·.push? ⟨.element, none, "", [], [], [0]⟩)).getD (.empty false)
    let env : Env := { Env.ofContext { forest } with locals := [(n.name, [.node 0, .node 1])] }
    (simplifyFilter (optimizerWithin 3) ⟨true, none, [n]⟩ nodes [last]).Gives (some lifted) ∧
    (Expr.truth (callWithin 0) env ⟨.filter nodes [last], .of .node .zeroOrMore, none⟩).Gives
      false ∧
    (lifted.truth (callWithin 0) env).Gives true := by
  intro n nodes item position compared last lifted forest env
  exact ⟨rfl, Logged.gives_iff_toOption.mpr (by decide +kernel),
    Logged.gives_iff_toOption.mpr (by decide +kernel)⟩

end TreeQuery
