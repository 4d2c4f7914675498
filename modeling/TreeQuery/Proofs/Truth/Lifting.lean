import TreeQuery.Proofs.Filter.Sifting
import TreeQuery.Proofs.Truth.Extension
import TreeQuery.Proofs.Truth.Search
import TreeQuery.Proofs.Typing.Calls
/-!
# Predicates that are lifted out of a filter

Where only the truth of a filter counts, its last predicate is lifted out of the brackets: what it
says of the item in focus is said of all items at once that the other predicates keep. Both tell
whether one of these items is hit (`Expr.Tells`): whether it leads to an item of the kind that the
predicate looks for. So they agree (`simplifyFilter_tells`), if no step that is lifted asks for its
position.
-/

namespace TreeQuery

/-- The items of a root that pass predicates where their place does not matter. -/
def Kept (call : Caller) (env : Env) (root : Expr) (es : List Expr) (x : Item) : Prop :=
  ∃ c, (root.iterate call env).Gives c ∧ x ∈ delivered (c.deliveries env.scoring) ∧
    HoldAll call (env.focusAlone x) es true

/-- Whether the truth of an expression tells if a predicate holds of one of the items with a
property. -/
def Expr.Tells (call : Caller) (env : Env) (e : Expr) (From : Item → Prop) (last : Expr) : Prop :=
  ∃ Hit : Item → Prop,
    (∀ x, From x → ∀ verdict, (last.test call (env.focusAlone x)).Gives verdict →
      (verdict.isSome = true ↔ Hit x)) ∧
    ∀ b, (e.truth call env).Gives b → (b = true ↔ ∃ x, From x ∧ Hit x)

/-- What a predicate is about: the operand that is compared or searched, or all of it. -/
def Expr.subject (e : Expr) : Expr :=
  match e.form with
  | .comparison .general _ left _ => left
  | .containsText input _ => input
  | _ => e

theorem Expr.Steady.of_subject {scope : Scope} {e : Expr} (h : e.subject.Steady scope) :
    e.Steady scope := by
  obtain ⟨form, τ, l⟩ := e
  cases form
  case comparison style op left right =>
    intro steps hsteps
    simp [relativeSteps?] at hsteps
  case containsText input query =>
    intro steps hsteps
    simp [relativeSteps?] at hsteps
  all_goals exact h

section

variable {call : Caller} {env : Env} {scope : Scope} {root e : Expr} {l : Option Location}
    {τ : StaticType}

/-! ### The filter -/

/-- The truth of a filter of nodes tells whether one of them passes all predicates, which have then
been applied to all. -/
theorem Expr.filter_truth (hc : call.IgnoresFocus) {predicates : List Expr} (hne : predicates ≠ [])
    (hsteady : predicates.any isPositional = false) (hroot : ∀ c, (root.iterate call env).Gives c →
      ∀ x ∈ delivered (c.deliveries env.scoring), (∃ n, x = .node n) ∧
      SoundOn call env predicates x) {b : Bool} (h :
      (Expr.truth call env ⟨.filter root predicates, τ, l⟩).Gives b) :
      ∃ c, (root.iterate call env).Gives c ∧ (b = true → ∃ x, Kept call env root predicates x) ∧
      (b = false → Clean (c.deliveries env.scoring) ∧
        ∀ x ∈ delivered (c.deliveries env.scoring),
        HoldAll call (env.focusAlone x) predicates false) := by
  obtain ⟨d, hd, hsupports⟩ := Expr.truth_gives h
  simp only [iterate, Form.iterate, Logged.gives_locate, Logged.gives_bind] at hd
  obtain ⟨c, hgives, hd⟩ := hd
  change (c.filterWith call env predicates).Gives d at hd
  rw [filterWith_eq_of_steady hne hsteady, Logged.gives_pure] at hd
  have hsteady : ∀ e ∈ predicates, e.isPositional = false :=
    fun e he => by simpa using List.any_eq_false.mp hsteady e he
  have judged {x : Item} (hx : x ∈ delivered (c.deliveries env.scoring)) {n : Nat}
    {mean : Option Number}
      (h : (meanTest call (env.focusOn none env.scoring n x) predicates.length .zero
        predicates).Gives mean) :
      HoldAll call (env.focusAlone x) predicates mean.isSome :=
    (meanTest_holds predicates h).alone hc hsteady (hroot c hgives x hx).2
  have hselected : Selected _ env.scoring (c.deliveries env.scoring) (d.deliveries env.scoring) :=
    hd ▸ c.selected 0
  refine ⟨c, hgives, ?_, ?_⟩
  · rintro rfl
    obtain ⟨x, hx, -⟩ := hsupports
    obtain ⟨hdelivered, n, score, hscore⟩ := hselected.passed x hx
    exact ⟨x, c, hgives, hdelivered, judged hdelivered hscore⟩
  · rintro rfl
    refine ⟨(hselected.judged hsupports.1).1, fun x hx => ?_⟩
    obtain ⟨n, mean, hmean, hpassed⟩ := (hselected.judged hsupports.1).2 x hx
    -- an item that passes would be delivered, and it is a node
    have hfailed : mean.isSome = false := by
      rw [← Bool.not_eq_true]
      intro hsome
      obtain ⟨node, rfl⟩ := (hroot c hgives x hx).1
      exact hsupports.2 _ (hpassed hsome) trivial
    exact hfailed ▸ judged hx hmean

/-- An expression that tells if the last predicate holds of one of certain items agrees with the
filter, if these are the items that the other predicates keep; more of them do no harm if one passes
all predicates. -/
theorem Expr.Tells.truth_eq {From : Item → Prop} {es : List Expr} {last : Expr} {b b' : Bool}
    (htells : e.Tells call env From last) (hb' : (e.truth call env).Gives b')
    (hkept : ∀ x, Kept call env root es x → From x)
    (htrue : b = true → ∃ x, Kept call env root (es ++ [last]) x)
    (hfalse : b = false → ∀ x, From x → HoldAll call (env.focusAlone x) es true ∧
      HoldAll call (env.focusAlone x) (es ++ [last]) false) : b = b' := by
  obtain ⟨Hit, hhit, htruth⟩ := htells
  have hverdict {x : Item} {r : Bool} (h : HoldAll call (env.focusAlone x) [last] r) :
      ∃ verdict, (last.test call (env.focusAlone x)).Gives verdict ∧ verdict.isSome = r := by
    obtain ⟨hlast, rfl⟩ | ⟨hlast, rfl⟩ := h <;> exact hlast
  rw [Bool.eq_iff_iff, htruth b' hb']
  cases b
  · -- an item that the others keep and the last one hits would have passed all of them
    simp only [Bool.false_eq_true, false_iff]
    rintro ⟨x, hx, hit⟩
    obtain ⟨hes, hall⟩ := hfalse rfl x hx
    obtain ⟨-, hlast⟩ | ⟨hnot, -⟩ := (holdAll_append _ es).mp hall
    · obtain ⟨verdict, htest, hsome⟩ := hverdict hlast
      have := (hhit x hx verdict htest).mpr hit
      simp [hsome] at this
    · cases hes.unique hnot
  · obtain ⟨x, c, hgives, hdelivered, hall⟩ := htrue rfl
    obtain ⟨hes, hlast⟩ | ⟨-, hnever⟩ := (holdAll_append _ es).mp hall
    · obtain ⟨verdict, htest, hsome⟩ := hverdict hlast
      have hx : From x := hkept x ⟨c, hgives, hdelivered, hes⟩
      exact ⟨fun _ => ⟨x, hx, (hhit x hx verdict htest).mp hsome⟩, fun _ => rfl⟩
    · cases hnever

/-! ### What takes its place -/

section Place

variable {From : Item → Prop} {R : Item → Item → Prop} {Q : Item → Prop} {last operand path : Expr}

/-- A predicate and what takes its place look for the same kind of item: the one among what its
operand delivers, the other among what extends it, or in vain where there is none. -/
theorem Expr.Extends.tells (hpath : path.Extends call env From R)
    (hoperand : operand.Relates call env R)
    (hlast : ∀ x, From x → ∀ verdict, (last.test call (env.focusAlone x)).Gives verdict →
      ∃ d, (operand.iterate call (env.focusAlone x)).Gives d ∧
      Supports Q (d.deliveries env.scoring) verdict.isSome) (he :
      ∀ b, (e.truth call env).Gives b →
      (∃ d, (path.iterate call env).Gives d ∧ Supports Q (d.deliveries env.scoring) b) ∨
      b = false ∧ ∀ x, From x → ∀ y, R x y → ¬Q y) : e.Tells call env From last := by
  refine ⟨fun x => ∃ y, R x y ∧ Q y, fun x hx verdict hverdict => ?_, fun b hb => ?_⟩
  · obtain ⟨d, hd, hsupports⟩ := hlast x hx verdict hverdict
    obtain ⟨hsound, hcomplete⟩ := hoperand x d hd
    cases hsome : verdict.isSome <;> rw [hsome] at hsupports
    · simp only [Bool.false_eq_true, false_iff]
      rintro ⟨y, hR, hQ⟩
      exact hsupports.2 y (hcomplete hsupports.1 y hR) hQ
    · obtain ⟨y, hy, hQ⟩ := hsupports
      exact ⟨fun _ => ⟨y, hsound y hy, hQ⟩, fun _ => rfl⟩
  · obtain ⟨d, hd, hsupports⟩ | ⟨rfl, hnone⟩ := he b hb
    · cases b
      · simp only [Bool.false_eq_true, false_iff]
        rintro ⟨x, hx, y, hR, hQ⟩
        exact hsupports.2 y (hpath.complete d hd hsupports.1 x hx y hR) hQ
      · obtain ⟨y, hy, hQ⟩ := hsupports
        obtain ⟨x, hx, hR⟩ := hpath.sound d hd y hy
        exact ⟨fun _ => ⟨x, hx, y, hR, hQ⟩, fun _ => rfl⟩
    · simp only [Bool.false_eq_true, false_iff]
      rintro ⟨x, hx, y, hR, hQ⟩
      exact hnone x hx y hR hQ

theorem Expr.Extends.tells_whole (hpath : e.Extends call env From R)
    (hoperand : last.Relates call env R) (hlast : last.isPositional = false)
    (hsound : ∀ x, From x → last.SoundAt call (env.focusAlone x)) : e.Tells call env From last :=
  hpath.tells hoperand (fun x hx _ h => Expr.test_gives hlast (hsound x hx) h) fun _ h =>
    .inl (Expr.truth_gives h)

end Place

/-! ### Comparisons -/

section Comparisons

variable {op : CompareOp} {left right path : Expr}

theorem Expr.truth_ofBool {b b' : Bool} (h : (((Expr.ofBool b).at? l).truth call env).Gives b') :
    b' = b := by
  obtain ⟨c, hc, hsupports⟩ := Expr.truth_gives h
  obtain rfl : Cursor.ofList [.atomic (.boolean b)] = c := by
    simpa [Expr.ofBool, Expr.literal, Expr.of, Expr.at?, iterate, Form.iterate] using hc
  exact Cursor.eq_of_supports_ofBool hsupports

theorem Expr.truth_general {b : Bool}
    (h : (Expr.truth call env ⟨.comparison .general op left right, τ, l⟩).Gives b) :
    ∃ vs ws, (left.atoms call env).Gives vs ∧ (right.atoms call env).Gives ws ∧
    compareGeneral op vs ws = .ok b := by
  obtain ⟨c, hc, hsupports⟩ := Expr.truth_gives h
  simp only [iterate, Logged.gives_locate] at hc
  obtain ⟨b', vs, ws, rfl, hvs, hws, hcompare⟩ := Form.iterate_general hc
  exact ⟨vs, ws, hvs, hws, Cursor.eq_of_supports_ofBool hsupports ▸ hcompare⟩

/-- A comparison in the brackets looks for an item on its left side, if the right side is the same
for all items. -/
theorem Expr.test_general (hc : call.IgnoresFocus)
    (hlast : Expr.isPositional ⟨.comparison .general op left right, τ, l⟩ = false)
    (hright : right.dependsOn .context = false) {x : Item}
    (sound : Expr.SoundAt call (env.focusAlone x) ⟨.comparison .general op left right, τ, l⟩)
    {verdict : Option Number}
    (h : (Expr.test call (env.focusAlone x) ⟨.comparison .general op left right, τ, l⟩).Gives
      verdict) : ∃ d ws, (left.iterate call (env.focusAlone x)).Gives d ∧
    (right.atoms call env).Gives ws ∧
      ∀ values : Run (List Atomic), values.Gives ws →
        Supports (Compares env.forest op values) (d.deliveries env.scoring) verdict.isSome := by
  obtain ⟨c, hiterate, hsupports⟩ := Expr.test_gives hlast sound h
  simp only [iterate, Logged.gives_locate] at hiterate
  obtain ⟨b, vs, ws, rfl, hvs, hws, hcompare⟩ := Form.iterate_general hiterate
  have hposition : right.dependsOn .position = false := by
    simp only [isPositional, dependsOn, Form.dependsOn, Bool.or_eq_false_iff] at hlast
    exact hlast.2.2
  have hsame : right.atoms call (env.focusAlone x) = right.atoms call env := by
    simp only [Expr.atoms]
    rw [show right.value call (env.focusAlone x) = right.value call env from
      Expr.value_withFocus hc right (.of_neither hright hposition)]
    rfl
  obtain ⟨d, hd, hclean, hatoms⟩ := Expr.atoms_gives hvs
  refine ⟨d, ws, hd, hsame ▸ hws, fun values hvalues => ?_⟩
  rw [Cursor.eq_of_supports_ofBool hsupports]
  exact compares_supports hclean hatoms hvalues (.inl hcompare)

theorem Expr.iterate_literal {e : Expr} {vs : List Atomic} (h : e.literalValues? = some vs) :
    (e.iterate call env).Gives (.ofList (vs.map .atomic)) := by
  obtain ⟨form, type, place⟩ := e
  obtain rfl : form = .literal vs := literalValues?_eq_some.mp h
  simp [iterate, Form.iterate]

theorem atomizeAll_atomic {forest : Forest} :
    (vs : List Atomic) → atomizeAll forest (vs.map .atomic) = .ok vs
  | [] => rfl
  | v :: vs => by
    have ih : (vs.map Item.atomic).mapM (Item.atomize forest) = .ok vs := atomizeAll_atomic vs
    rw [atomizeAll, List.map_cons, List.mapM_cons, ih]
    rfl

theorem Expr.atoms_literal {e : Expr} {vs ws : List Atomic} (h : e.literalValues? = some vs)
    (hws : (e.atoms call env).Gives ws) : vs = ws := by
  obtain ⟨d, hd, -, hatoms⟩ := Expr.atoms_gives hws
  obtain rfl := (Expr.iterate_literal h).unique hd
  rw [Cursor.delivered_ofList, atomizeAll_atomic] at hatoms
  exact Except.ok.inj hatoms

theorem Expr.atoms_zero {Γ : List Variable} {K : Knowledge} (hcall : call.Sound)
    (henv : env.Fits Γ K) (he : e.Annotated Γ K) (hzero : e.type.isZero = true) {ws : List Atomic}
    (hws : (e.atoms call env).Gives ws) : ws = [] := by
  obtain ⟨d, hd, -, hatoms⟩ := Expr.atoms_gives hws
  have hnone : delivered (d.deliveries env.scoring) = [] := by
    rw [List.eq_nil_iff_forall_not_mem]
    intro item hitem
    have := (Expr.iterate_fits hcall henv he hd _ he.infers env.scoring).isZero_eq_false hitem
    simp [hzero] at this
  rw [hnone] at hatoms
  simpa [atomizeAll, pure, Except.pure] using hatoms

/-- The truth of a comparison from the root is supported by what its left side delivers, unless
nothing there compares. The values on the right are those of the right side, which are there at once
if it is a literal. -/
theorem optimizeComparison_supports {Γ : List Variable} {K : Knowledge} (hcall : call.Sound)
    (henv : env.Fits Γ K) (h : (optimizeComparison scope .general op path right l).Gives e)
    (hright : right.Annotated Γ K) :
    ∃ values : Run (List Atomic), (∀ ws, (right.atoms call env).Gives ws → values.Gives ws) ∧
      ∀ b, (e.truth call env).Gives b →
        (∃ d, (path.iterate call env).Gives d ∧
          Supports (Compares env.forest op values) (d.deliveries env.scoring) b) ∨
        b = false ∧ (path.type.isZero = true ∨ ∀ y, ¬Compares env.forest op values y) := by
  obtain rfl | rfl | ⟨vs, ws, folded, place, hvs, hws, hfolded, rfl⟩ | ⟨-, ⟨hzero, -⟩, rfl⟩ :=
    optimizeComparison_cases h
  · refine ⟨right.atoms call env, fun _ => id, fun b hb => .inl ?_⟩
    obtain ⟨vs, ws, hvs, hws, hcompare⟩ := Expr.truth_general hb
    obtain ⟨d, hd, hclean, hatoms⟩ := Expr.atoms_gives hvs
    exact ⟨d, hd, compares_supports hclean hatoms hws (.inl hcompare)⟩
  · refine ⟨right.atoms call env, fun _ => id, fun b hb => .inl ?_⟩
    obtain ⟨vs, ws, hvs, hws, hcompare⟩ := Expr.truth_general hb
    obtain ⟨d, hd, hclean, hatoms⟩ := Expr.atoms_gives hws
    exact ⟨d, hd, compares_supports hclean hatoms hvs (.inr hcompare)⟩
  · obtain ⟨b, rfl, ⟨-, hcompare⟩ | ⟨hvalue, -⟩⟩ | ⟨hvalue, -⟩ := foldComparison_cases hfolded
    · refine ⟨pure ws, fun ws' hws' => Logged.gives_pure.mpr (Expr.atoms_literal hws hws'),
        fun b' hb' => .inl ?_⟩
      obtain rfl := Expr.truth_ofBool hb'
      have hatoms : atomizeAll env.forest
          (delivered ((Cursor.ofList (vs.map .atomic)).deliveries env.scoring)) = .ok vs := by
        rw [Cursor.delivered_ofList, atomizeAll_atomic]
      have hws : (pure ws : Run (List Atomic)).Gives ws := Logged.gives_pure.mpr rfl
      exact ⟨_, Expr.iterate_literal hvs,
        compares_supports (Cursor.clean_ofList _) hatoms hws (.inl hcompare)⟩
    · cases hvalue
    · cases hvalue
  · refine ⟨right.atoms call env, fun _ => id,
      fun b hb => .inr ⟨Expr.truth_ofBool hb, hzero.imp_right fun hzero y hcompares => ?_⟩⟩
    obtain ⟨ws, hws, v, -, w, hw, -⟩ := hcompares
    simp [Expr.atoms_zero hcall henv hright hzero hws] at hw

end Comparisons

/-! ### Full-text searches -/

section Searches

variable {input query path : Expr}

theorem Expr.truth_search {b : Bool}
    (h : (Expr.truth call env ⟨.containsText input query, τ, l⟩).Gives b) :
    ∃ d, (input.iterate call env).Gives d ∧
    Supports (Matches env (query.value call env)) (d.deliveries env.scoring) b := by
  obtain ⟨c, hc, hsupports⟩ := Expr.truth_gives h
  simp only [iterate, Form.iterate, Logged.gives_locate, Logged.gives_bind, Logged.gives_pure] at hc
  obtain ⟨m, hm, rfl⟩ := hc
  exact Cursor.eq_of_supports_ofBool hsupports ▸ Env.search_gives hm

theorem Expr.test_search (hc : call.IgnoresFocus)
    (hlast : Expr.isPositional ⟨.containsText input query, τ, l⟩ = false)
    (hquery : query.dependsOn .context = false) {x : Item} {verdict : Option Number}
    (h : (Expr.test call (env.focusAlone x) ⟨.containsText input query, τ, l⟩).Gives verdict) :
    ∃ d, (input.iterate call (env.focusAlone x)).Gives d ∧
      Supports (Matches env (query.value call env)) (d.deliveries env.scoring) verdict.isSome := by
  have hposition : query.dependsOn .position = false := by
    simp only [isPositional, dependsOn, Form.dependsOn, Bool.or_eq_false_iff] at hlast
    exact hlast.2.2
  have hsame : query.value call (env.focusAlone x) = query.value call env :=
    Expr.value_withFocus hc query (.of_neither hquery hposition)
  simp only [test, Logged.gives_bind, Logged.gives_locate, Logged.gives_pure] at h
  obtain ⟨m, hm, rfl⟩ := h
  rw [hsame] at hm
  obtain ⟨d, hd, hsupports⟩ := Env.search_gives hm
  refine ⟨d, hd, ?_⟩
  cases hfound : m.found <;> rw [hfound] at hsupports <;> exact hsupports

theorem optimizeSearch_supports (h : (optimizeSearch scope path query l).Gives e) {b : Bool}
    (hb : (e.truth call env).Gives b) :
    (∃ d, (path.iterate call env).Gives d ∧
      Supports (Matches env (query.value call env)) (d.deliveries env.scoring) b) ∨
      b = false ∧ path.type.isZero = true := by
  obtain rfl | ⟨hempty, rfl⟩ := optimizeSearch_cases h
  · exact .inl (Expr.truth_search hb)
  · exact .inr ⟨Expr.truth_ofBool hb, hempty⟩

end Searches

/-! ### The last predicate -/

section Last

variable {opt : Optimizer} {Γ : List Variable} {K L : Knowledge} {From : Item → Prop}
    {predicates : List Expr}
  {place : Option Location} (hc : call.IgnoresFocus) (hplace : call.IgnoresPlace)
    (hcall : call.Sound) (henv : env.Fits Γ K)
  (hfrom : ∀ x, From x → L.Holds env.forest x ∧ x.Good)
  (hrest : ∀ head, (remainingRoot opt scope root predicates).Gives head →
    head.Keeps call env From ∧ (head.isContextItem = true → ∃ item, env.focus.item = some item))

include hc hplace hcall henv hfrom hrest

theorem liftPredicate_tells {last : Expr} (hann : last.Annotated Γ L)
    (hlast : last.isPositional = false) (hsteady : last.Steady scope)
    (h : (liftPredicate opt scope root predicates last).Gives (some e)) :
    e.Tells call env From last := by
  have hsound {x : Item} (hx : From x) : last.SoundAt call (env.focusAlone x) :=
    hann.soundAt hcall (henv.focusOn (hfrom x hx))
  obtain hextended | ⟨-, head, hhead, hmap⟩ := liftPredicate_cases h
  · obtain ⟨R, hrelates, hextends, -⟩ :=
      extendRoot_extends hc hplace hcall henv hfrom hextended
        (fun head h => (hrest head h).1) hann hsteady
    exact hextends.tells_whole hrelates hlast fun x hx => hsound hx
  · have hposition : last.dependsOn .position = false := by
      simp only [Expr.isPositional, Bool.or_eq_false_iff] at hlast
      exact hlast.2
    exact (optimizeMap_extends hc hplace hcall henv hfrom hmap (hrest head hhead).1
      (hrest head hhead).2 hann
      hposition).tells_whole last.relates_finds hlast fun x hx => hsound hx

theorem liftComparison_tells {op : CompareOp} {left right path : Expr}
    (hann : Expr.Annotated Γ L ⟨.comparison .general op left right, τ, l⟩)
    (hlast : Expr.isPositional ⟨.comparison .general op left right, τ, l⟩ = false)
    (hcontext : right.dependsOn .context = false) (hsteady : left.Steady scope)
    (hextended : (extendRoot opt scope root predicates left).Gives (some path))
    (h : (optimizeComparison scope .general op path right place).Gives e) :
    e.Tells call env From ⟨.comparison .general op left right, τ, l⟩ := by
  have hsound {x : Item} (hx : From x) : Expr.SoundAt call (env.focusAlone x)
      ⟨.comparison .general op left right, τ, l⟩ :=
    hann.soundAt hcall (henv.focusOn (hfrom x hx))
  simp only [Expr.Annotated, Form.Annotated] at hann
  obtain ⟨R, hrelates, hextends, hnonzero⟩ :=
    extendRoot_extends hc hplace hcall henv hfrom hextended
      (fun head h => (hrest head h).1) hann.2.1 hsteady
  obtain ⟨values, hvalues, hsupports⟩ :=
    optimizeComparison_supports hcall henv h (hann.2.2.refocus (.inr hcontext))
  refine hextends.tells (Q := Compares env.forest op values) hrelates
    (fun x hx verdict hverdict => ?_) fun b hb => ?_
  · obtain ⟨d, ws, hd, hws, hsupports⟩ := Expr.test_general hc hlast hcontext (hsound hx) hverdict
    exact ⟨d, hd, hsupports values (hvalues ws hws)⟩
  · refine (hsupports b hb).imp_right fun hnone => ⟨hnone.1, fun x hx y hR => ?_⟩
    rcases hnone.2 with hzero | hnone
    · exact absurd (hnonzero x hx y hR) (by simp [hzero])
    · exact hnone y

theorem liftSearch_tells {input query path : Expr}
    (hann : Expr.Annotated Γ L ⟨.containsText input query, τ, l⟩)
    (hlast : Expr.isPositional ⟨.containsText input query, τ, l⟩ = false)
    (hcontext : query.dependsOn .context = false) (hsteady : input.Steady scope)
    (hextended : (extendRoot opt scope root predicates input).Gives (some path))
    (h : (optimizeSearch scope path query place).Gives e) :
    e.Tells call env From ⟨.containsText input query, τ, l⟩ := by
  simp only [Expr.Annotated, Form.Annotated] at hann
  obtain ⟨R, hrelates, hextends, hnonzero⟩ :=
    extendRoot_extends hc hplace hcall henv hfrom hextended
      (fun head h => (hrest head h).1) hann.2.1 hsteady
  refine hextends.tells hrelates
    (fun x _ verdict hverdict => Expr.test_search hc hlast hcontext hverdict) fun b hb => ?_
  refine (optimizeSearch_supports h hb).imp_right fun hnone => ⟨hnone.1, fun x hx y hR => ?_⟩
  exact absurd (hnonzero x hx y hR) (by simp [hnone.2])

/-- The last predicate tells the same from outside of the brackets. -/
theorem simplifyFilter_tells {last : Expr} (hgetLast : predicates.getLast? = some last)
    (hann : last.Annotated Γ L) (hsteady : last.subject.Steady scope)
    (h : (simplifyFilter opt scope root predicates).Gives (some e)) :
    (root.type.item.isNode = true ∧ predicates.any Expr.isPositional = false) ∧
    e.Tells call env From last := by
  obtain ⟨last', hgetLast', hnode, hpositional, h⟩ := simplifyFilter_cases h
  obtain rfl : last = last' := Option.some.inj (hgetLast.symm.trans hgetLast')
  refine ⟨⟨hnode, hpositional⟩, ?_⟩
  have hlast : last.isPositional = false := by
    simpa using List.any_eq_false.mp hpositional last (List.mem_of_getLast? hgetLast)
  obtain ⟨form, τ, l⟩ := last
  obtain h | ⟨op, left, right, path, hform, hcontext, hpath, h⟩ |
    ⟨input, query, path, hform, hcontext, hpath, h⟩ := h
  · exact liftPredicate_tells hc hplace hcall henv hfrom hrest hann hlast hsteady.of_subject h
  · subst hform
    exact liftComparison_tells hc hplace hcall henv hfrom hrest hann hlast hcontext hsteady hpath h
  · subst hform
    exact liftSearch_tells hc hplace hcall henv hfrom hrest hann hlast hcontext hsteady hpath h

end Last

/-! ### Filters of nodes -/

theorem remainingRoot_contextItem {opt : Optimizer} {predicates : List Expr} {head : Expr}
    (h : (remainingRoot opt scope root predicates).Gives head) (hitem : head.isContextItem = true) :
    head = root := by
  obtain ⟨-, rfl⟩ | ⟨-, h⟩ := remainingRoot_cases h
  · rfl
  · obtain ⟨filtered, -, ⟨t, -, ⟨-, rfl⟩ | rfl⟩ | ⟨-, place, rfl⟩⟩ := optimizeFilter_cases h
    · rfl
    · cases hitem
    · cases hitem

theorem Expr.focus_of_contextItem {e : Expr} (he : e.isContextItem = true) {c : Cursor}
    (h : (e.iterate call env).Gives c) : ∃ item, env.focus.item = some item := by
  obtain ⟨form, type, place⟩ := e
  cases form <;> simp [isContextItem] at he
  simp only [iterate, Form.iterate, Logged.gives_locate, Logged.gives_map] at h
  obtain ⟨item, hitem, -⟩ := h
  exact ⟨item, Env.contextItem_gives hitem⟩

theorem Item.node_of_isInstance {forest : Forest} {t : ItemType} (ht : t.isNode = true)
    {item : Item} (h : item.isInstance forest t = true) : ∃ n, item = .node n := by
  cases item with
  | node n => exact ⟨n, rfl⟩
  | atomic v =>
    cases t <;> simp_all [ItemType.isNode, Item.isInstance, ItemType.admits, ItemType.admitsAtomic]
  | function f => cases t <;> simp_all [ItemType.isNode, Item.isInstance, ItemType.admitsFunction]

end

end TreeQuery
