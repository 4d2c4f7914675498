import TreeQuery.Proofs.Check.Streaming
import TreeQuery.Proofs.Compile.Tidy
import TreeQuery.Proofs.Rewriting.Walk
import TreeQuery.Proofs.Truth.Lifting
/-!
# Nested paths that are written out

A relative path among the steps of a path begins anew at each item before it; its steps, written out
in its place, begin at all of these items at once. Both make the same of at most one item. Of
several items they make the same if no step asks for its position, and if the nodes are put into
document order at the end of the nested path anyway, or by its only step (`Expr.Dissolves`). Then
the rules for paths keep the value (`optimizePath_value`); a step that asks for its position may
give another one (`optimizePath_position`).
-/

namespace TreeQuery

variable {call : Caller} {env : Env} {scope : Scope} {Γ : List Variable} {K L : Knowledge}

/-! ### Nested paths -/

/-- Whether a relative path has steps, and carries the occurrence that they have together, as
compilation leaves it. -/
def Expr.Tallies (e : Expr) : Prop :=
  ∀ inner, e.form = .relativePath inner → inner ≠ [] ∧
    e.type.occurrence = chainOccurrence .one inner

/-- Whether the steps of a relative path make the same of several items at once as of one after the
other. -/
def Expr.Dissolves (e : Expr) : Prop :=
  ∀ inner, e.form = .relativePath inner →
    (∀ s ∈ inner, s.dependsOn .position = false) ∧ (inner.length = 1 ∨ e.type.item.isNode = true)

/-- Whether all relative paths dissolve that may begin at several items. At most one item comes
before the first step if `alone` holds. -/
def DissolveAll : Bool → List Expr → Prop
  | _, [] => True
  | alone, e :: es => (alone = true ∨ e.Dissolves) ∧ DissolveAll (alone && e.type.atMostOne) es

/-- What compilation leaves tallies. -/
theorem Expr.Tidy.tallies {e : Expr} (h : e.Tidy) : e.Tallies := by
  obtain ⟨form, τ, l⟩ := e
  rintro inner rfl
  obtain ⟨hne, -, rfl⟩ := h.1
  exact ⟨hne, rfl⟩

theorem compileChain_tallies {d : Nat} (hoptimize : scope.optimize = true)
    {source steps : List Expr} {t : Option ItemType} (hsource : AllSatisfy .tidySource () source)
    (h : (compileChain (optimizerWithin d) scope t source).Gives steps) : ∀ s ∈ steps, s.Tallies :=
  fun s hs => Expr.Tidy.tallies (allSatisfy_iff.mp (compileChain_tidy hoptimize hsource h) s hs)

/-! ### Occurrences -/

theorem Occurrence.multiply_atMostOne {a b : Occurrence} (h : a.multiply b ≠ .zero) :
    (a.multiply b).atMostOne = (a.atMostOne && b.atMostOne) := by
  revert h
  cases a <;> cases b <;> decide

theorem Occurrence.multiply_zero (a : Occurrence) : a.multiply .zero = .zero := by cases a <;> rfl

theorem chainOccurrence_zero (es : List Expr) : chainOccurrence .zero es = .zero := by
  induction es with
  | nil => rfl
  | cons e es ih =>
    have hzero : Occurrence.zero.multiply e.type.occurrence = .zero := by
      cases e.type.occurrence <;> rfl
    rwa [chainOccurrence, List.foldl_cons, hzero, ← chainOccurrence]

theorem chainOccurrence_eq_zero {es : List Expr} {start : Occurrence}
    (h : es.any (·.type.isZero) = true) : chainOccurrence start es = .zero := by
  induction es generalizing start with
  | nil => cases h
  | cons e es ih =>
    rw [chainOccurrence, List.foldl_cons, ← chainOccurrence]
    simp only [List.any_cons, Bool.or_eq_true] at h
    obtain h | h := h
    · rw [eq_of_beq h, Occurrence.multiply_zero, chainOccurrence_zero]
    · exact ih h

theorem chainOccurrence_atMostOne {es : List Expr} {start : Occurrence}
    (h : chainOccurrence start es ≠ .zero) :
    (chainOccurrence start es).atMostOne = (start.atMostOne && es.all (·.type.atMostOne)) := by
  induction es generalizing start with
  | nil => simp [chainOccurrence]
  | cons e es ih =>
    rw [chainOccurrence, List.foldl_cons, ← chainOccurrence] at h ⊢
    have hhere : start.multiply e.type.occurrence ≠ .zero :=
      fun hzero => h (by rw [hzero, chainOccurrence_zero])
    rw [ih h, Occurrence.multiply_atMostOne hhere, List.all_cons, ← Bool.and_assoc]
    rfl

/-- At most one item comes behind a relative path if at most one comes behind each step, unless
nothing does. -/
theorem Expr.Tallies.atMostOne {inner : List Expr} {τ : StaticType} {l : Option Location}
    (h : Expr.Tallies ⟨.relativePath inner, τ, l⟩) (hzero : τ.isZero = false) :
    τ.atMostOne = inner.all (·.type.atMostOne) := by
  have hocc : τ.occurrence = chainOccurrence .one inner := (h inner rfl).2
  have hne : chainOccurrence .one inner ≠ .zero := by
    rw [← hocc]
    exact fun h => by simp [StaticType.isZero, h] at hzero
  rw [StaticType.atMostOne, hocc, chainOccurrence_atMostOne hne]
  rfl

theorem isZero_of_flattenSteps : {steps : List Expr} → (∀ s ∈ steps, s.Tallies) →
    (flattenSteps scope steps).any (·.type.isZero) = true → steps.any (·.type.isZero) = true
  | s :: ss, htallies, h => by
    rw [List.forall_mem_cons] at htallies
    rw [flattenSteps_cons, List.any_append, Bool.or_eq_true] at h
    rw [List.any_cons, Bool.or_eq_true]
    refine h.imp (fun h => ?_) (isZero_of_flattenSteps htallies.2)
    obtain heq | ⟨inner, τ, l, rfl, heq⟩ := flattenSteps_single scope s
    · simpa [heq] using h
    · rw [heq] at h
      have hocc : τ.occurrence = chainOccurrence .one inner := (htallies.1 inner rfl).2
      exact beq_iff_eq.mpr (hocc.trans (chainOccurrence_eq_zero h))

/-! ### What is known of the items -/

theorem StaticType.Fits.length_le_one {forest : Forest} {τ : StaticType} {items : List Item}
    {p : Prop} (h : τ.Fits forest items p) (hone : τ.atMostOne = true) : items.length ≤ 1 := by
  have hmax : τ.occurrence.max = some 0 ∨ τ.occurrence.max = some 1 := by
    revert hone
    rw [StaticType.atMostOne]
    cases τ.occurrence <;> decide
  obtain hmax | hmax := hmax
  · exact Nat.le_succ_of_le (h.counts.atMost _ hmax)
  · exact h.counts.atMost _ hmax

section Items

variable (hcall : call.Sound)

include hcall

theorem Expr.Delivers.fits (henv : env.Fits Γ K) {e : Expr} (he : e.Annotated Γ K) {ys : List Item}
    (h : e.Delivers call env ys) :
    e.type.Fits env.forest ys True ∧ ∀ y ∈ ys, (e.Offers K).Holds env.forest y ∧ y.Good := by
  obtain ⟨c, hc, hclean, rfl⟩ := h
  have hfits (τ : StaticType) (hτ : e.Infers K τ) : c.OfType env.forest τ :=
    Expr.iterate_fits hcall henv he hc τ hτ
  exact ⟨(hfits e.type he.infers env.scoring).imp fun _ => hclean, he.supplies hfits env.scoring⟩

variable (henv : env.Fits Γ K)

include henv

theorem Expr.Maps.blocks {e : Expr} (he : e.Annotated Γ L) {size : Option Nat} :
    {xs : List Item} → {pos : Nat} →
    {ys : List Item} → (∀ x ∈ xs, L.Holds env.forest x ∧ x.Good) → e.Maps call env size pos xs ys →
    ∃ blocks : List (List Item), ys = blocks.flatten ∧ blocks.length = xs.length ∧ ∀ block ∈ blocks,
      e.type.Fits env.forest block True ∧ ∀ y ∈ block, (e.Offers L).Holds env.forest y ∧ y.Good
  | [], _, _, _, h => ⟨[], h, rfl, by simp⟩
  | x :: xs, _, _, hxs, ⟨block, rest, hblock, hrest, hys⟩ => by
    rw [List.forall_mem_cons] at hxs
    obtain ⟨blocks, rfl, hlength, hblocks⟩ := Expr.Maps.blocks he hxs.2 hrest
    refine ⟨block :: blocks, hys, congrArg (· + 1) hlength, List.forall_mem_cons.mpr ⟨?_, hblocks⟩⟩
    exact hblock.fits hcall (henv.focusOn hxs.1) he

section

variable {e : Expr} (he : e.Annotated Γ L) {xs ys : List Item}
    (hxs : ∀ x ∈ xs, L.Holds env.forest x ∧ x.Good)
  (h : e.Follows call env xs ys)

include he hxs h

theorem Expr.Follows.offers : ∀ y ∈ ys, (e.Offers L).Holds env.forest y ∧ y.Good := by
  obtain ⟨blocks, rfl, -, hblocks⟩ := Expr.Maps.blocks hcall henv he hxs h
  intro y hy
  obtain ⟨block, hblock, hy⟩ := List.mem_flatten.mp hy
  exact (hblocks block hblock).2 y hy

theorem Expr.Follows.nil_of_isZero (hzero : e.type.isZero = true) : ys = [] := by
  obtain ⟨blocks, rfl, -, hblocks⟩ := Expr.Maps.blocks hcall henv he hxs h
  rw [List.eq_nil_iff_forall_not_mem]
  intro y hy
  obtain ⟨block, hblock, hy⟩ := List.mem_flatten.mp hy
  have := (hblocks block hblock).1.isZero_eq_false hy
  simp [hzero] at this

theorem Expr.Follows.length_le_one (hone : e.type.atMostOne = true) (hle : xs.length ≤ 1) :
    ys.length ≤ 1 := by
  obtain ⟨blocks, rfl, hlength, hblocks⟩ := Expr.Maps.blocks hcall henv he hxs h
  match blocks with
  | [] => simp
  | [block] => simpa using (hblocks block List.mem_cons_self).1.length_le_one hone
  | _ :: _ :: _ =>
    simp only [List.length_cons] at hlength
    omega

end

theorem Walks.nil_of_isZero : {steps : List Expr} → {alone : Bool} → {L : Knowledge} →
    AnnotatedChain Γ L steps →
    steps.any (·.type.isZero) = true → {xs ys : List Item} →
    (∀ x ∈ xs, L.Holds env.forest x ∧ x.Good) →
    Walks call env alone steps xs ys → ys = []
  | s :: ss, alone, L, hann, hzero, xs, ys, hxs, ⟨zs, hzs, h⟩ => by
    rw [AnnotatedChain] at hann
    have hoffers := hzs.offers hcall henv hann.1 hxs
    cases hs : s.type.isZero with
    | true =>
      obtain rfl := hzs.nil_of_isZero hcall henv hann.1 hxs hs
      cases alone with
      | true => exact Walks.of_nil h
      | false =>
        obtain ⟨ws, hws, h⟩ := h
        obtain rfl : [] = ws := Except.ok.inj hws
        exact Walks.of_nil h
    | false =>
      have hzero : ss.any (·.type.isZero) = true := by simpa [hs] using hzero
      cases alone with
      | true => exact Walks.nil_of_isZero hann.2 hzero hoffers h
      | false =>
        obtain ⟨ws, hws, h⟩ := h
        exact Walks.nil_of_isZero hann.2 hzero
          (fun w hw => hoffers w ((mem_documentOrder hws).mp hw)) h

end Items

/-! ### One item after the other, and all at once -/

/-- A relative path makes of an item what its steps make of it. -/
theorem Expr.Delivers.walks {inner : List Expr} {τ : StaticType} {l : Option Location}
    {size : Option Nat} {pos : Nat} {x : Item} {ys : List Item}
    (h : Expr.Delivers call (env.focusOn size env.scoring pos x) ⟨.relativePath inner, τ, l⟩ ys) :
    Walks call env true inner [x] ys := by
  obtain ⟨c, hc, hclean, rfl⟩ := h
  simp only [iterate, Form.iterate, Logged.gives_locate, Logged.gives_bind] at hc
  obtain ⟨item, hitem, hc⟩ := hc
  obtain rfl : x = item := Logged.gives_pure.mp hitem
  have hc : (followSteps call env (.single x) true inner).Gives c := by
    rwa [← followSteps_withFocus call env ⟨some x, pos, size⟩]
  exact (followSteps_walks hc hclean).2

section Nested

variable {inner : List Expr} {τ : StaticType} {l : Option Location} {size : Option Nat}

/-- A relative path makes of several items all that its steps lead to from each. -/
theorem Expr.Maps.mem_relativePath (hc : call.IgnoresFocus)
    (hsteady : ∀ s ∈ inner, s.dependsOn .position = false) {y : Item} :
    {xs : List Item} → {pos : Nat} → {ys : List Item} →
    Expr.Maps call env ⟨.relativePath inner, τ, l⟩ size pos xs ys →
    (y ∈ ys ↔ ∃ x ∈ xs, Leads (Expr.Finds call env) inner x y)
  | [], _, ys, h => by
    obtain rfl : ys = [] := h
    simp
  | x :: xs, _, _, ⟨block, rest, hblock, hrest, hys⟩ => by
    have hmem : y ∈ block ↔ Leads (Expr.Finds call env) inner x y := by
      simpa using Walks.mem_iff (y := y) hc hsteady hblock.walks
    rw [hys, List.mem_append, Expr.Maps.mem_relativePath hc hsteady hrest,
      List.exists_mem_cons_iff, hmem]

theorem Expr.Maps.single_relativePath (hc : call.IgnoresFocus) {s : Expr}
    (hs : s.dependsOn .position = false) {size' : Option Nat} :
    {xs : List Item} → {pos : Nat} → {ys zs : List Item} →
    Expr.Maps call env ⟨.relativePath [s], τ, l⟩ size pos xs ys →
    s.Maps call env size' pos xs zs → ys = zs
  | [], _, _, _, h, h' => Eq.trans h (Eq.symm h')
  | x :: xs, _, _, _, ⟨block, rest, hblock, hrest, hys⟩, ⟨block', rest', hblock', hrest', hzs⟩ => by
    obtain ⟨_, ⟨us, _, hus, hnil, rfl⟩, h⟩ := hblock.walks
    obtain rfl := hnil
    have hsame : us = block' :=
      ((Expr.delivers_focusOn hc hs).mp hus).unique ((Expr.delivers_focusOn hc hs).mp hblock')
    have hblock : us ++ [] = block := h
    rw [hys, hzs, Expr.Maps.single_relativePath hc hs hrest hrest', ← hblock,
      List.append_nil, hsame]

theorem Walks.ordered : {steps : List Expr} → steps ≠ [] → {xs ys : List Item} →
    Walks call env false steps xs ys →
    ∃ zs, documentOrder env.forest zs = .ok ys
  | [_], _, _, _, ⟨zs, _, _, hws, h⟩ => ⟨zs, h ▸ hws⟩
  | _ :: s :: ss, _, _, _, ⟨_, _, _, _, h⟩ => Walks.ordered (List.cons_ne_nil s ss) h

variable (hcall : call.Sound) (henv : env.Fits Γ K)
    (hann : Expr.Annotated Γ L ⟨.relativePath inner, τ, l⟩)
  {xs ys zs : List Item} (hxs : ∀ x ∈ xs, L.Holds env.forest x ∧ x.Good)
  (hys : Expr.Follows call env ⟨.relativePath inner, τ, l⟩ xs ys)

include hys

theorem Expr.Follows.eq_walks (hle : xs.length ≤ 1) (hzs : Walks call env true inner xs zs) :
    ys = zs := by
  match xs with
  | [] =>
    obtain rfl : ys = [] := hys
    exact hzs.of_nil.symm
  | [x] =>
    obtain ⟨block, rest, hblock, hrest, rfl⟩ := hys
    obtain rfl : rest = [] := hrest
    rw [List.append_nil]
    exact hblock.walks.unique hzs
  | _ :: _ :: _ => simp at hle

include hcall henv hann hxs

/-- If its steps may be written out, a relative path makes of several items, put into document
order, what its steps make. -/
theorem Expr.Follows.ordered_eq_walks (hc : call.IgnoresFocus) (hne : inner ≠ [])
    (hdissolves : Expr.Dissolves ⟨.relativePath inner, τ, l⟩) {ordered : List Item}
    (hordered : documentOrder env.forest ys = .ok ordered)
    (hzs : Walks call env false inner xs zs) : ordered = zs := by
  obtain ⟨hsteady, honly | hnode⟩ := hdissolves inner rfl
  · obtain ⟨s, rfl⟩ := List.length_eq_one_iff.mp honly
    obtain ⟨us, hus, ws, hws, rfl⟩ := hzs
    obtain rfl := Expr.Maps.single_relativePath hc (hsteady s (List.mem_singleton_self s)) hys hus
    exact Except.ok.inj (hordered.symm.trans hws)
  · obtain ⟨us, hus⟩ := hzs.ordered hne
    refine documentOrder_eq hordered hus (fun y hy => ?_) fun y => ?_
    · have hinstance := (hys.offers hcall henv hann hxs y hy).1 τ.item hann.offers
      exact Item.node_of_isInstance hnode hinstance
    · rw [Expr.Maps.mem_relativePath hc hsteady hys, ← mem_documentOrder hus,
        Walks.mem_iff hc hsteady hzs]

end Nested

/-! ### Paths -/

section Flatten

variable (hc : call.IgnoresFocus) (hcall : call.Sound) (henv : env.Fits Γ K)

include hc hcall henv

/-- Steps make the same of items if nested paths among them are written out. -/
theorem Walks.flatten (scope : Scope) :
    {steps : List Expr} → {alone : Bool} → {L : Knowledge} → AnnotatedChain Γ L steps →
    (∀ s ∈ steps, s.Tallies) → DissolveAll alone steps → {xs : List Item} →
    (∀ x ∈ xs, L.Holds env.forest x ∧ x.Good) →
    (alone = true → xs.length ≤ 1) → {ys ys' : List Item} → Walks call env alone steps xs ys →
    Walks call env alone (flattenSteps scope steps) xs ys' → ys = ys'
  | [], _, _, _, _, _, _, _, _, _, _, h, h' => h.unique h'
  | s :: ss, alone, L, hann, htallies, hdissolves, xs, hxs, halone, ys, ys', ⟨zs, hzs, h⟩, h' => by
    rw [AnnotatedChain] at hann
    rw [List.forall_mem_cons] at htallies
    have hoffers := hzs.offers hcall henv hann.1 hxs
    rw [flattenSteps_cons] at h'
    obtain ⟨zs', hzs', h'⟩ := (walks_append _).mp h'
    -- behind the step, in one form or the other, there are the same items, at most one of them in
    -- the same cases
    cases alone with
    | true =>
      have hsame : zs = zs' ∧
          (zs ≠ [] → aloneBehind true (flattenSteps scope [s]) = s.type.atMostOne) := by
        obtain heq | ⟨inner, τ, l, rfl, heq⟩ := flattenSteps_single scope s
        · rw [heq] at hzs' ⊢
          obtain ⟨us, hus, rfl⟩ := hzs'
          exact ⟨hzs.unique hus, fun _ => by simp [aloneBehind]⟩
        · rw [heq] at hzs' ⊢
          refine ⟨hzs.eq_walks (halone rfl) hzs', fun hne => (htallies.1.atMostOne ?_).symm⟩
          rw [← Bool.not_eq_true]
          exact fun hzero => hne (hzs.nil_of_isZero hcall henv hann.1 hxs hzero)
      obtain ⟨rfl, hflag⟩ := hsame
      by_cases hnil : zs = []
      · subst hnil
        rw [Walks.of_nil h, Walks.of_nil h']
      · rw [hflag hnil] at h'
        exact Walks.flatten scope hann.2 htallies.2 hdissolves.2 hoffers
          (fun hone => hzs.length_le_one hcall henv hann.1 hxs hone (halone rfl)) h h'
    | false =>
      obtain ⟨ws, hws, h⟩ := h
      have hsame : ws = zs' := by
        obtain heq | ⟨inner, τ, l, rfl, heq⟩ := flattenSteps_single scope s
        · rw [heq] at hzs'
          obtain ⟨us, hus, _, hordered, rfl⟩ := hzs'
          obtain rfl := hzs.unique hus
          exact Except.ok.inj (hws.symm.trans hordered)
        · rw [heq] at hzs'
          exact hzs.ordered_eq_walks hcall henv hann.1 hxs hc (htallies.1 inner rfl).1
            (hdissolves.1.resolve_left Bool.false_ne_true) hws hzs'
      obtain rfl := hsame
      exact Walks.flatten scope hann.2 htallies.2 hdissolves.2
        (fun w hw => hoffers w ((mem_documentOrder hws).mp hw))
        (fun h => absurd h Bool.false_ne_true) h h'

end Flatten

theorem optimizePath_cases {root : Option Expr} {steps : List Expr} {l : Option Location} {e : Expr}
    (hne : flattenSteps scope steps ≠ []) (h : (optimizePath scope root steps l).Gives e) :
    (∃ τ, e = ⟨.pathFrom root (flattenSteps scope steps), τ, l⟩) ∨
    (root = none ∧ flattenSteps scope steps = [e] ∧ e.isStep = true) ∨
    ((root.any (·.type.isZero) = true ∨ (flattenSteps scope steps).any (·.type.isZero) = true) ∧
      ∃ place, e = Expr.empty.at? place) := by
  cases root with
  | some root =>
    obtain ⟨hnil, -⟩ | ⟨-, rfl⟩ | ⟨⟨hzero, -⟩, hempty⟩ := optimizePath_some_cases h
    · exact absurd hnil hne
    · exact .inl ⟨_, rfl⟩
    · exact .inr (.inr ⟨by simpa only [Option.any_some, Bool.or_eq_true] using hzero, hempty⟩)
  | none =>
    obtain ⟨hnil, -⟩ | ⟨hsingle, hstep⟩ | ⟨-, rfl⟩ | ⟨⟨hzero, -⟩, hempty⟩ :=
      optimizePath_none_cases h
    · exact absurd hnil hne
    · exact .inr (.inl ⟨rfl, hsingle, hstep⟩)
    · exact .inl ⟨_, rfl⟩
    · exact .inr (.inr ⟨.inr hzero, hempty⟩)

theorem Expr.Delivers.eq_nil {place : Option Location} {ys : List Item}
    (h : (Expr.empty.at? place).Delivers call env ys) : ys = [] := by
  obtain ⟨c, hc, -, rfl⟩ := h
  obtain rfl : Cursor.ofList [] = c := by
    simpa [Expr.empty, Expr.literal, Expr.of, Expr.at?, iterate, Form.iterate] using hc
  rfl

theorem Expr.Delivers.walks_of_isStep (hc : call.IgnoresFocus) {e : Expr} (he : e.isStep = true)
    {x : Item} (hx : env.focus.item = some x) {ys : List Item} (h : e.Delivers call env ys) :
    Walks call env true [e] [x] ys := by
  obtain ⟨form, τ, l⟩ := e
  cases form <;> simp [isStep] at he
  case step axis test predicates =>
    have hposition : Expr.dependsOn .position ⟨.step axis test predicates, τ, l⟩ = false := by
      simp [dependsOn, Form.dependsOn]
    exact ⟨ys, (Expr.follows_single hc hposition hx).mpr h, rfl⟩

/-- The rules for paths keep the value: wherever the path and what becomes of it both have a value,
the values are equal. Nested paths that may begin at several items have to dissolve. -/
theorem optimizePath_value (depth : Nat) {root : Option Expr} {steps : List Expr} {e : Expr}
    {l : Option Location} (henv : env.Fits Γ K) (hann : (Form.pathFrom root steps).Annotated Γ K)
    (hne : steps ≠ []) (htallies : ∀ s ∈ steps, s.Tallies)
    (hdissolves : DissolveAll (root.all (·.type.atMostOne)) steps)
    (h : (optimizePath scope root steps l).Gives e) {τ : StaticType} {place : Option Location}
    {items items' : List Item}
    (hitems : (Expr.value (callWithin depth) env ⟨.pathFrom root steps, τ, place⟩).Gives items)
    (hitems' : (e.value (callWithin depth) env).Gives items') : items = items' := by
  have hc := callWithin_ignoresFocus depth
  have hcall := callWithin_sound depth
  obtain ⟨xs, hxs, hwalks⟩ := Form.pathFrom_walks (.of_drained (Expr.value_iff_drained.mp hitems))
  have hdelivers' : e.Delivers (callWithin depth) env items' :=
    .of_drained (Expr.value_iff_drained.mp hitems')
  -- the path begins at the items of the root, or at the one in focus, which are as the steps expect
  have hstart : ∃ L, AnnotatedChain Γ L steps ∧ (∀ x ∈ xs, L.Holds env.forest x ∧ x.Good) ∧
      (root.all (·.type.atMostOne) = true → xs.length ≤ 1) ∧
      (root.any (·.type.isZero) = true → xs = []) := by
    cases root with
    | some root =>
      simp only [Form.pathFrom, Form.Annotated] at hann
      obtain ⟨hfits, hoffers⟩ := hxs.fits hcall henv hann.1
      refine ⟨_, hann.2, hoffers, hfits.length_le_one, fun hzero => ?_⟩
      rw [List.eq_nil_iff_forall_not_mem]
      intro x hx
      exact absurd hzero (Bool.eq_false_iff.mp (hfits.isZero_eq_false hx))
    | none =>
      obtain ⟨x, hx, rfl⟩ := hxs
      simp only [Form.pathFrom, Form.Annotated] at hann
      exact ⟨_, hann, by simpa using henv.focus x hx, fun _ => Nat.le_refl 1, fun h => by simp at h⟩
  obtain ⟨L, hchain, hoffers, halone, hzero⟩ := hstart
  have hflat {ys : List Item}
    (h : Walks (callWithin depth) env (root.all (·.type.atMostOne))
    (flattenSteps scope steps) xs ys) :
      items = ys := Walks.flatten hc hcall henv scope hchain htallies hdissolves
        hoffers halone hwalks h
  obtain ⟨τ, rfl⟩ | ⟨rfl, hsingle, hstep⟩ | ⟨hempty, place, rfl⟩ :=
    optimizePath_cases
      (flattenSteps_ne_nil (fun s hs inner hinner => (htallies s hs inner hinner).1) hne) h
  · obtain ⟨xs', hxs', hwalks'⟩ := Form.pathFrom_walks hdelivers'
    have hsame : xs = xs' := by
      cases root with
      | some root => exact hxs.unique hxs'
      | none =>
        obtain ⟨x, hx, rfl⟩ := hxs
        obtain ⟨x', hx', rfl⟩ := hxs'
        rw [Option.some.inj (hx.symm.trans hx')]
    exact hflat (hsame ▸ hwalks')
  · obtain ⟨x, hx, rfl⟩ := hxs
    exact hflat (hsingle ▸ hdelivers'.walks_of_isStep hc hstep hx)
  · rw [hdelivers'.eq_nil]
    obtain hempty | hempty := hempty
    · exact (hzero hempty ▸ hwalks).of_nil
    · exact Walks.nil_of_isZero hcall henv hchain
        (isZero_of_flattenSteps htallies hempty) hoffers hwalks

/-- The children of the parents of a text and of the element around it are the same, found for each
of the two or for both at once. -/
theorem optimizePath_value_parent :
    let n : Variable := { name := .plain "n", declared := some ⟨.node, .zeroOrMore⟩ }
    let nodes : Expr := ⟨.reference n, .of .node .zeroOrMore, none⟩
    let parent : Expr := ⟨.step .parent ⟨none, none⟩ [], stepType .parent ⟨none, none⟩, none⟩
    let child : Expr := ⟨.step .child ⟨none, none⟩ [], stepType .child ⟨none, none⟩, none⟩
    let nested : Expr := ⟨.relativePath [parent, child], .of .node .zeroOrMore, none⟩
    let path (steps : List Expr) : Expr := ⟨.path nodes steps, .of .node .zeroOrMore, none⟩
    let forest := (((Forest.empty false).push? ⟨.text, none, "a", [], [], []⟩).bind
      (·.push? ⟨.element, none, "", [], [], [0]⟩)).getD (.empty false)
    let env : Env := { Env.ofContext { forest } with locals := [(n.name, [.node 0, .node 1])] }
    (optimizePath ⟨true, none, [n]⟩ (some nodes) [nested] none).Gives
      (path [parent, child]) ∧ ∃ items items',
      (Expr.value (callWithin 0) env (path [nested])).Gives items ∧
      (Expr.value (callWithin 0) env (path [parent, child])).Gives items' ∧ items = items' := by
  intro n nodes parent child nested path forest env
  have found : (Expr.value (callWithin 0) env (path [nested])).Gives ([0].map .node) :=
    gives_nodes (by decide +kernel)
  have found' : (Expr.value (callWithin 0) env (path [parent, child])).Gives ([0].map .node) :=
    gives_nodes (by decide +kernel)
  have flattened : (optimizePath ⟨true, none, [n]⟩ (some nodes) [nested] none).Gives
    (path [parent, child]) := rfl
  have fits : env.Fits [n] fun _ => False :=
    .single (.ofSeqType (by simp [n, Variable.type, Item.isInstance, ItemType.admitsKind])
      (by simp [Item.Good]) rfl)
  have annotated : (Form.pathFrom (some nodes) [nested]).Annotated [n] fun _ => False :=
    ⟨⟨rfl, rfl⟩, annotated_relativePath ⟨⟨rfl, trivial⟩, ⟨rfl, trivial⟩, trivial⟩, trivial⟩
  have tallies : ∀ s ∈ [nested], s.Tallies := by
    intro s hs inner hinner
    obtain rfl := List.mem_singleton.mp hs
    obtain rfl := Form.relativePath.inj hinner
    exact ⟨List.cons_ne_nil _ _, rfl⟩
  have dissolves : DissolveAll (Option.all (·.type.atMostOne) (some nodes)) [nested] := by
    refine ⟨.inr fun inner hinner => ?_, trivial⟩
    obtain rfl := Form.relativePath.inj hinner
    exact ⟨by simp [parent, child, Expr.dependsOn, Form.dependsOn], .inr rfl⟩
  exact ⟨flattened, _, _, found, found',
    optimizePath_value 0 fits annotated (List.cons_ne_nil _ _) tallies dissolves
    flattened found found'⟩

/-- A nested path for the position finds 1 for each of two nodes; written out, it numbers them. -/
theorem optimizePath_position :
    let n : Variable := { name := .plain "n", declared := some ⟨.node, .zeroOrMore⟩ }
    let nodes : Expr := ⟨.reference n, .of .node .zeroOrMore, none⟩
    let position : Expr := ⟨.call .position [], .of (.atomic .integer) .one, none⟩
    let nested : Expr := ⟨.relativePath [position], .of (.atomic .integer) .one, none⟩
    let path (steps : List Expr) : Expr :=
      ⟨.path nodes steps, .of (.atomic .integer) .zeroOrMore, none⟩
    let forest := (((Forest.empty false).push? ⟨.text, none, "a", [], [], []⟩).bind
      (·.push? ⟨.element, none, "", [], [], [0]⟩)).getD (.empty false)
    let env : Env := { Env.ofContext { forest } with locals := [(n.name, [.node 0, .node 1])] }
    (optimizePath ⟨true, none, [n]⟩ (some nodes) [nested] none).Gives (path [position]) ∧
    (Expr.value (callWithin 0) env (path [nested])).Gives
      [.atomic (.integer 1), .atomic (.integer 1)] ∧
    (Expr.value (callWithin 0) env (path [position])).Gives
      [.atomic (.integer 1), .atomic (.integer 2)] :=
  ⟨rfl, rfl, rfl⟩

end TreeQuery
