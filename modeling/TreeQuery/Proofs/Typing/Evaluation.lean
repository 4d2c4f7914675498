import TreeQuery.Proofs.Typing.Chains
import TreeQuery.Proofs.Typing.Delivery
/-!
# Evaluation keeps to static types

An annotated expression evaluates to a sequence of each of its static types, as a cursor
(`Expr.iterate_fits`) and as a whole value (`Expr.value_fits`), provided that calls of function
items give what the functions' signatures promise. Failures on the way do not matter: what is
delivered among them is still of the right type, and never too long.
-/

namespace TreeQuery

variable {Γ : List Variable} {K : Knowledge}

/-- Whether calls give what the signatures of functions promise. -/
def Caller.Sound (call : Caller) : Prop := ∀ env f args l result, env.Sane → f.Good →
  (∀ arg ∈ args, ∀ item ∈ arg, item.Good) → (call env f args l).Gives result →
  (StaticType.ofSeqType f.signature.result).Fits env.forest result True

/-! ### Constants and comparisons -/

section

variable {forest : Forest} {τ : StaticType}

theorem TypesConstants.fits {values : List Atomic} (h : TypesConstants τ values) :
    τ.Fits forest (values.map .atomic) True := by
  obtain ⟨hlength, rfl | ⟨rfl, i, rfl⟩⟩ := h
  · refine ⟨fun item hitem => ?_, by simp [Item.Good], ?_⟩
    · obtain ⟨v, hv, rfl⟩ := List.mem_map.mp hitem
      exact literalType_admits hv
    · rw [List.length_map]
      exact .sized _ (Nat.le_refl _) hlength fun _ => rfl
  · exact ⟨by simp, by simp, .of i (fun _ _ => Nat.zero_le _) fun _ => Nat.le_refl 0⟩

theorem atomizeAll_length : {items : List Item} → {values : List Atomic} →
    atomizeAll forest items = .ok values →
    values.length = items.length
  | [], values, h => by
    obtain rfl : [] = values := by simpa [atomizeAll, pure, Except.pure] using h
    rfl
  | item :: items, values, h => by
    rw [atomizeAll, List.mapM_cons] at h
    cases hitem : item.atomize forest with
    | error e => simp [hitem, bind, Except.bind] at h
    | ok v =>
      cases hitems : atomizeAll forest items with
      | error e =>
        rw [atomizeAll] at hitems
        simp [hitem, hitems, bind, Except.bind] at h
      | ok vs =>
        have ih := atomizeAll_length hitems
        rw [atomizeAll] at hitems
        simp only [hitem, hitems, bind, Except.bind, pure, Except.pure, Except.ok.injEq] at h
        rw [← h, List.length_cons, List.length_cons, ih]

theorem compareAtomics_fits {style : CompareStyle} {op : CompareOp} {left right : List Atomic}
    {items : List Item} {σ ρ : StaticType} (h : compareAtomics style op left right = .ok items)
    (hleft : σ.occurrence.min ≤ left.length) (hright : ρ.occurrence.min ≤ right.length) :
    (compareType style σ ρ).Fits forest items True := by
  have truth {x : Except Error Bool} {o : Occurrence} (ho : o = .zeroOrOne ∨ o = .one)
      (h : (x.map fun b => [.atomic (.boolean b)]) = .ok items) :
      (StaticType.of (.atomic .boolean) o).Fits forest items True := by
    cases x with
    | error e => simp [Except.map] at h
    | ok b =>
      obtain rfl : [.atomic (.boolean b)] = items := by simpa [Except.map] using h
      have hfits : StaticType.boolean.Fits forest [.atomic (.boolean b)] True := .boolean b
      refine ⟨hfits.item, hfits.good, .of _ ?_ ?_⟩
      · rcases ho with rfl | rfl <;> simp [Occurrence.AtMost, Occurrence.max]
      · rcases ho with rfl | rfl <;> simp [Occurrence.min]
  cases style with
  | general => exact truth (.inr rfl) h
  | value =>
    simp only [compareAtomics, compareType] at h ⊢
    split at h
    · obtain rfl := Except.ok.inj h
      rw [Nat.le_zero.mp hleft]
      exact ⟨by simp, by simp, .of _ (fun _ _ => Nat.zero_le _) fun _ => Nat.le_refl 0⟩
    · obtain rfl := Except.ok.inj h
      rw [Nat.le_zero.mp hright, beq_self_eq_true, Bool.or_true, if_pos rfl]
      exact ⟨by simp, by simp, .of _ (fun _ _ => Nat.zero_le _) fun _ => Nat.le_refl 0⟩
    · exact truth (by split <;> simp) h
    · cases h

end

/-! ### Expressions -/

variable {call : Caller} {env : Env}

/-- A whole value is checked as a whole if it is that of a check, and is what the cursor delivers
otherwise. -/
theorem Expr.value_gives {e : Expr} {items : List Item} (h : (e.value call env).Gives items) :
    (∃ operand target promote τ l source, e = ⟨.check operand target promote, τ, l⟩ ∧
      (operand.value call env).Gives source ∧
      (checkSequence env.forest target promote l source).Gives items) ∨
    ∃ c, (e.iterate call env).Gives c ∧ (c.drain env.scoring).Gives items := by
  obtain ⟨form, τ, l⟩ := e
  cases form
  case check operand target promote =>
    simp only [value, Logged.gives_bind] at h
    obtain ⟨source, hsource, hitems⟩ := h
    exact .inl ⟨operand, target, promote, τ, l, source, rfl, hsource, hitems⟩
  all_goals
    simp only [value, Logged.gives_bind] at h
    exact .inr h

/-! ### Steps, paths and maps -/

theorem stepNodes_fits {forest : Forest} (axis : Axis) (test : NodeTest) (n : NodeId) :
    (stepType axis test).Fits forest
      (((forest.axisNodes n axis).filter (test.passes forest)).map .node) True where
  item := by
    simp only [List.forall_mem_map, List.mem_filter]
    exact fun m ⟨hm, hpasses⟩ => Host.stepOffers_stepType axis test forest n m hm hpasses
  good := by
    simp only [List.forall_mem_map]
    exact fun _ _ => trivial
  counts := by
    rw [List.length_map]
    refine .of _ ?_ fun _ => Nat.le_trans (by split <;> exact Nat.le_refl 0) (Nat.zero_le _)
    have hlength : axis.isSingleton = true → (forest.axisNodes n axis).length ≤ 1 := by
      cases axis <;> simp [Axis.isSingleton, Forest.axisNodes, Option.length_toList_le]
    split
    · next hsingleton =>
      exact fun m hm => Option.some.inj hm ▸ Nat.le_trans (List.length_filter_le ..)
        (hlength hsingleton)
    · exact fun m hm => by cases hm

theorem Cursor.OfType.reverse {forest : Forest} {τ : StaticType} {c : Cursor}
    (hc : c.OfType forest τ) {scoring : Bool} {scored : List (Item × Number)}
    (hscored : (c.drainScored scoring).Gives scored) (f : Item × Number → Item × Option Number)
    (hf : ∀ entry, (f entry).1 = entry.1) : (ofScored (scored.reverse.map f)).OfType forest τ := by
  intro scoring'
  obtain ⟨hdelivered, hclean⟩ := drainScored_delivered hscored
  have hitems : delivered ((ofScored (scored.reverse.map f)).deliveries scoring') =
      (scored.map Prod.fst).reverse := by
    rw [delivered_ofScored, List.map_map, List.map_reverse]
    congr 1
    exact List.map_congr_left fun entry _ => hf entry
  have hfits := hc scoring
  rw [hdelivered] at hfits
  rw [hitems]
  refine ⟨fun item hitem => hfits.item item (List.mem_reverse.mp hitem),
    fun item hitem => hfits.good item (List.mem_reverse.mp hitem), ?_⟩
  rw [List.length_reverse]
  exact hfits.counts.imp fun _ => hclean

theorem Cursor.Supplies.ofChain {forest : Forest} {c : Cursor} {es : List Expr}
    {σs : List StaticType} {o : Occurrence} {size : Option Nat}
    (h : c.Supplies forest (chainOffers K es)) (hσs : InfersChain K es σs)
    (hcount : c.Counted o size) :
    c.OfType forest (.make ((σs.getLast?.map StaticType.item).getD .any) o size) := by
  refine h.ofType ?_ fun scoring => (hcount scoring).make _
  rw [make_item]
  cases hlast : σs.getLast? with
  | none => exact .inl rfl
  | some σ => exact .of_mem (hσs.offers hlast)

mutual

/-- The cursor of an annotated expression is of all its static types. -/
theorem Expr.iterate_fits (hcall : call.Sound) :
    {e : Expr} → {K : Knowledge} → {env : Env} → env.Fits Γ K →
    e.Annotated Γ K → {c : Cursor} → (e.iterate call env).Gives c → ∀ τ, e.Infers K τ →
    c.OfType env.forest τ
  | ⟨form, _, l⟩, K, env, henv, he, c, h, τ, hτ => by
    rw [Expr.iterate, Logged.gives_locate] at h
    rw [Expr.Annotated] at he
    rw [Expr.Infers] at hτ
    exact Form.iterate_fits hcall henv he.2 h τ hτ

/-- The whole value of an annotated expression is of all its static types. -/
theorem Expr.value_fits (hcall : call.Sound) :
    {e : Expr} → {K : Knowledge} → {env : Env} → env.Fits Γ K →
    e.Annotated Γ K → {items : List Item} → (e.value call env).Gives items → ∀ τ, e.Infers K τ →
    τ.Fits env.forest items True
  | ⟨form, σ, l⟩, K, env, henv, he, items, h, τ, hτ => by
    rw [Expr.Annotated] at he
    rw [Expr.Infers] at hτ
    have hdrained (c : Cursor) (hc : (form.iterate call env l).Gives c)
      (hitems : (c.drain env.scoring).Gives items) :
        τ.Fits env.forest items True := (Form.iterate_fits hcall henv he.2 hc τ hτ).drain hitems
    cases form with
    | check operand target promote =>
      simp only [Form.Annotated] at he
      simp only [Form.Infers] at hτ
      simp only [Expr.value, Logged.gives_bind] at h
      obtain ⟨source, hsource, hitems⟩ := h
      obtain ⟨ρ, hρ, rfl⟩ := hτ
      exact (Expr.value_fits hcall henv he.2 hsource ρ hρ).check hitems
    | _ =>
      simp only [Expr.value, Logged.gives_bind, Logged.gives_locate] at h
      obtain ⟨c, hc, hitems⟩ := h
      exact hdrained c hc hitems

theorem Form.iterate_fits (hcall : call.Sound) :
    {form : Form} → {K : Knowledge} → {env : Env} → env.Fits Γ K →
    form.Annotated Γ K → {l : Option Location} → {c : Cursor} → (form.iterate call env l).Gives c →
    ∀ τ, form.Infers K τ → c.OfType env.forest τ
  | .literal values, K, env, henv, he, l, c, h, τ, hτ => by
    simp only [Form.iterate, Logged.gives_pure, Form.Infers] at h hτ
    exact h ▸ Cursor.ofType_ofList hτ.fits
  | .function f, K, env, henv, he, l, c, h, τ, hτ => by
    simp only [Form.iterate, Logged.gives_pure, Form.Infers, Form.Annotated] at h hτ he
    subst h hτ
    exact Cursor.ofType_ofList (.one (Signature.instanceOf_refl f.signature) he)
  | .contextItem, K, env, henv, he, l, c, h, τ, hτ => by
    simp only [Form.iterate, Logged.gives_map, Form.Infers] at h hτ
    obtain ⟨item, hitem, rfl⟩ := h
    obtain ⟨hholds, hgood⟩ := henv.focus item (Env.contextItem_gives hitem)
    rcases hτ with rfl | ⟨t, ht, rfl⟩
    · exact Cursor.ofType_ofList (.anything (by simpa using hgood))
    · exact Cursor.ofType_ofList (.one (hholds.implies ht) hgood)
  | .position w, K, env, henv, he, l, c, h, τ, hτ => by
    simp only [Form.iterate, Logged.gives_pure, Form.Infers] at h hτ
    exact h ▸ hτ ▸ Cursor.ofType_ofBool _
  | .conjunction _, K, env, henv, he, l, c, h, τ, hτ | .disjunction _, K, env, henv, he, l,
      c, h, τ, hτ => by
    simp only [Form.iterate, Logged.gives_map, Form.Infers] at h hτ
    obtain ⟨b, -, rfl⟩ := h
    exact hτ ▸ Cursor.ofType_ofBool b
  | .containsText .., K, env, henv, he, l, c, h, τ, hτ => by
    simp only [Form.iterate, Logged.gives_bind, Logged.gives_pure, Form.Infers] at h hτ
    obtain ⟨m, -, rfl⟩ := h
    exact hτ ▸ Cursor.ofType_ofBool _
  | .comparison style op left right, K, env, henv, he, l, c, h, τ, hτ => by
    simp only [Form.iterate, Logged.gives_bind, Logged.gives_map, Logged.gives_lift, Form.Infers,
      Form.Annotated] at h hτ he
    obtain ⟨ls, hls, lv, hlv, rs, hrs, rv, hrv, items, hitems, rfl⟩ := h
    obtain ⟨σ, ρ, hσ, hρ, rfl⟩ := hτ
    have hl := (Expr.value_fits hcall henv he.1 hls σ hσ).counts.min_le trivial
    have hr := (Expr.value_fits hcall henv he.2 hrs ρ hρ).counts.min_le trivial
    rw [← atomizeAll_length hlv] at hl
    rw [← atomizeAll_length hrv] at hr
    exact Cursor.ofType_ofList (compareAtomics_fits hitems hl hr)
  | .call f args, K, env, henv, he, l, c, h, τ, hτ => by
    simp only [Form.iterate, Form.Annotated] at h he
    exact callBuiltin_fits hcall henv he h τ hτ
  | .step axis test predicates, K, env, henv, he, l, c, h, τ, hτ => by
    simp only [Form.iterate, Logged.gives_bind, Form.Infers] at h hτ
    obtain ⟨item, hitem, h⟩ := h
    subst hτ
    cases item with
    | atomic _ | function _ => simp at h
    | node n =>
      simp only [Logged.gives_bind, Logged.gives_ite, Logged.gives_pure] at h
      obtain ⟨kept, hkept, h⟩ := h
      have hkept := (Cursor.ofType_ofList (stepNodes_fits axis test n)).filterBy hkept
      obtain ⟨-, scored, hscored, rfl⟩ | ⟨-, rfl⟩ := h
      · exact hkept.reverse hscored _ fun _ => rfl
      · exact hkept
  | .path root steps, K, env, henv, he, l, c, h, τ, hτ => by
    simp only [Form.iterate, Logged.gives_bind, Form.Infers, Form.Annotated] at h hτ he
    obtain ⟨start, hstart, h⟩ := h
    obtain ⟨σ, σs, hσ, hσs, rfl⟩ := hτ
    have hroot := Expr.iterate_fits hcall henv he.1 hstart
    obtain ⟨hsupplies, hcounted⟩ := followSteps_fits hcall henv he.2 (he.1.supplies hroot) h
    exact hsupplies.ofChain hσs (hcounted _ σs hσs (hroot σ hσ).counted.anySize)
  | .relativePath steps, K, env, henv, he, l, c, h, τ, hτ => by
    simp only [Form.iterate, Logged.gives_bind, Form.Infers, Form.Annotated] at h hτ he
    obtain ⟨item, hitem, h⟩ := h
    obtain ⟨σs, hσs, rfl⟩ := hτ
    have hitem := henv.focus item (Env.contextItem_gives hitem)
    obtain ⟨hsupplies, hcounted⟩ :=
      followSteps_fits hcall henv he (Cursor.supplies_ofList (by simpa using hitem)) h
    exact hsupplies.ofChain hσs (hcounted .one σs hσs (Cursor.counted_single item).anySize)
  | .map [], K, env, henv, he, l, c, h, τ, hτ => by simp [Form.iterate] at h
  | .map (first :: rest), K, env, henv, he, l, c, h, τ, hτ => by
    simp only [Form.iterate, Logged.gives_bind, Form.Infers, InfersChain, Form.Annotated,
      AnnotatedChain] at h hτ he
    obtain ⟨start, hstart, h⟩ := h
    obtain ⟨_, ⟨σ, σs, hσ, hσs, rfl⟩, rfl⟩ := hτ
    have hfirst := Expr.iterate_fits hcall henv he.1 hstart
    obtain ⟨hsupplies, hcounted⟩ := followMaps_fits hcall henv he.2 (he.1.supplies hfirst) h
    -- the lengths of a map are multiplied from the first operand on, as of a chain behind a single
    -- item
    have hcount := hcounted (Occurrence.one.multiply σ.occurrence)
        (productOf (some 1) σ.size) σs hσs fun scoring => by
      rw [Occurrence.one_multiply]
      exact ((hfirst σ hσ).counted scoring).one_product
    have hchain : InfersChain K (first :: rest) (σ :: σs) := by
      rw [InfersChain]
      exact ⟨σ, σs, hσ, hσs, rfl⟩
    have hsupplies : c.Supplies env.forest (chainOffers K (first :: rest)) := hsupplies
    exact hsupplies.ofChain hchain hcount
  | .filter root predicates, K, env, henv, he, l, c, h, τ, hτ => by
    simp only [Form.iterate, Logged.gives_bind, Form.Infers, Form.Annotated] at h hτ he
    obtain ⟨start, hstart, h⟩ := h
    obtain ⟨σ, hσ, rfl⟩ := hτ
    exact (Expr.iterate_fits hcall henv he.1 hstart σ hσ).filterBy h
  | .conditional condition yes no, K, env, henv, he, l, c, h, τ, hτ => by
    simp only [Form.iterate, Logged.gives_bind, Logged.gives_ite, Form.Infers,
      Form.Annotated] at h hτ he
    obtain ⟨b, -, h⟩ := h
    obtain ⟨σ, ρ, hσ, hρ, rfl⟩ := hτ
    rcases h with ⟨-, h⟩ | ⟨-, h⟩
    · exact fun scoring => (Expr.iterate_fits hcall henv he.2.1 h σ hσ scoring).union_left
    · exact fun scoring => (Expr.iterate_fits hcall henv he.2.2 h ρ hρ scoring).union_right
  | .reference v, K, env, henv, he, l, c, h, τ, hτ => by
    simp only [Form.iterate, Logged.gives_map, Form.Infers, Form.Annotated] at h hτ he
    obtain ⟨value, hvalue, rfl⟩ := h
    exact hτ ▸ Cursor.ofType_ofList (henv.lookup he hvalue)
  | .apply f args, K, env, henv, he, l, c, h, τ, hτ => by
    simp only [Form.iterate, Logged.gives_bind, Form.Infers, Form.Annotated] at h hτ he
    obtain ⟨fs, hfs, h⟩ := h
    have hf := Expr.value_fits hcall henv he.1 hfs
    split at h
    · next g =>
      simp only [Logged.gives_bind, Logged.gives_map] at h
      obtain ⟨values, hvalues, items, hitems, rfl⟩ := h
      -- what the signature promises is only known of good functions, which all items of annotated
      -- expressions are
      have hg : g.Good := (hf _ he.1.infers).good (.function g) List.mem_cons_self
      have hresult := hcall env g values l items henv.toSane hg
        (valuesOf_good hcall henv he.2 hvalues) hitems
      rcases hτ with rfl | ⟨σ, s, hσ, hs, rfl⟩
      · exact Cursor.ofType_ofList (.anything hresult.good)
      · have hinstance := (hf σ hσ).item (.function g) List.mem_cons_self
        rw [hs] at hinstance
        refine Cursor.ofType_ofList (hresult.of_instanceOf ?_)
        rw [StaticType.instanceOf, StaticType.seqType_ofSeqType]
        exact Signature.result_instanceOf hinstance
    · simp at h
  | .check operand target promote, K, env, henv, he, l, c, h, τ, hτ => by
    simp only [Form.iterate, Logged.gives_bind, Logged.gives_pure, Form.Infers,
      Form.Annotated] at h hτ he
    obtain ⟨source, hsource, rfl⟩ := h
    obtain ⟨σ, hσ, rfl⟩ := hτ
    exact (Expr.iterate_fits hcall henv he hsource σ hσ).check (t := ⟨target, promote, l⟩)
  | .failure e, K, env, henv, he, l, c, h, τ, hτ => by simp [Form.iterate] at h

theorem callBuiltin_fits (hcall : call.Sound) :
    {args : List Expr} → {K : Knowledge} → {env : Env} → env.Fits Γ K →
    AnnotatedAll Γ K args → {f : Builtin} → {c : Cursor} → (callBuiltin call env f args).Gives c →
    ∀ τ, (Form.call f args).Infers K τ → c.OfType env.forest τ
  | [], K, env, henv, he, f, c, h, τ, hτ => by
    cases f <;> simp only [callBuiltin, Logged.gives_map, Logged.gives_failWith,
      Form.Infers] at h hτ
    case position | last =>
      obtain ⟨n, -, rfl⟩ := h
      exact hτ ▸ Cursor.ofType_ofNat n
  | arg :: args, K, env, henv, he, f, c, h, τ, hτ => by
    rw [AnnotatedAll] at he
    cases f <;> simp only [callBuiltin, Logged.gives_map, Logged.gives_bind, Logged.gives_pure,
      Form.Infers] at h hτ
    case boolean =>
      obtain ⟨b, -, rfl⟩ := h
      exact hτ ▸ Cursor.ofType_ofBool b
    case not =>
      obtain ⟨b, -, rfl⟩ := h
      exact hτ ▸ Cursor.ofType_ofBool _
    case «exists» | empty =>
      obtain ⟨_, -, _, -, rfl⟩ := h
      exact hτ ▸ Cursor.ofType_ofBool _
    case count =>
      obtain ⟨_, -, n, -, rfl⟩ := h
      exact hτ ▸ Cursor.ofType_ofNat n
    case position | last =>
      obtain ⟨n, -, rfl⟩ := h
      exact hτ ▸ Cursor.ofType_ofNat n
    case trace =>
      obtain ⟨items, hitems, -, -, -, -, rfl⟩ := h
      exact Cursor.ofType_ofList (Expr.value_fits hcall henv he.1 hitems τ hτ)

theorem valuesOf_good (hcall : call.Sound) :
    {es : List Expr} → {K : Knowledge} → {env : Env} → env.Fits Γ K →
    AnnotatedAll Γ K es → {values : List (List Item)} → (valuesOf call env es).Gives values →
    ∀ value ∈ values, ∀ item ∈ value, item.Good
  | [], K, env, henv, he, values, h => by
    simp only [valuesOf, Logged.gives_pure] at h
    simp [← h]
  | e :: es, K, env, henv, he, values, h => by
    simp only [valuesOf, Logged.gives_bind, Logged.gives_pure, AnnotatedAll] at h he
    obtain ⟨items, hitems, rest, hrest, rfl⟩ := h
    have hitems := Expr.value_fits hcall henv he.1 hitems e.type he.1.infers
    exact List.forall_mem_cons.mpr ⟨hitems.good, valuesOf_good hcall henv he.2 hrest⟩

theorem followSteps_fits (hcall : call.Sound) :
    {steps : List Expr} → {K L : Knowledge} → {env : Env} → env.Fits Γ L →
    AnnotatedChain Γ K steps → {c : Cursor} → c.Supplies env.forest K →
    {atMostOne : Bool} → {c' : Cursor} →
    (followSteps call env c atMostOne steps).Gives c' →
    c'.Supplies env.forest (chainOffers K steps) ∧
      ∀ o σs, InfersChain K steps σs → c.Counted o none →
      c'.Counted (σs.foldl (fun o t => o.multiply t.occurrence) o) none
  | [], K, L, env, henv, he, c, hc, atMostOne, c', h => by
    simp only [followSteps, Logged.gives_pure] at h
    subst h
    refine ⟨hc, fun o σs hσs hcount => ?_⟩
    rw [InfersChain] at hσs
    exact hσs ▸ hcount
  | step :: steps, K, L, env, henv, he, c, hc, atMostOne, c', h => by
    simp only [followSteps, Logged.gives_bind, Logged.gives_ite, Logged.gives_ofOutcome] at h
    rw [AnnotatedChain] at he
    obtain ⟨next, hnext, h⟩ := h
    have hstep (size : Option Nat) (scoring : Bool) (pos : Nat) (item : Item)
      (hitem : K.Holds env.forest item ∧ item.Good)
        (d : Cursor) (hd : (step.iterate call (env.focusOn size scoring pos item)).Gives d) :=
      Expr.iterate_fits hcall (henv.focusOn hitem) he.1 hd
    have hsupplies := Cursor.follow_supplies hc hnext fun size scoring pos item hitem d hd =>
      he.1.supplies (hstep size scoring pos item hitem d hd)
    have hcounted {o : Occurrence} {σ : StaticType} (hσ : step.Infers K σ)
        (hcount : c.Counted o none) :=
      Cursor.follow_counted hc hnext hcount fun size scoring pos item hitem d hd =>
        (hstep size scoring pos item hitem d hd σ hσ).counted.anySize
    have later {d : Cursor} {atMostOne : Bool} (hd : d.Supplies env.forest (step.Offers K))
        (hdcount : ∀ {o : Occurrence} {σ : StaticType}, step.Infers K σ → c.Counted o none →
          d.Counted (o.multiply σ.occurrence) none)
        (h : (followSteps call env d atMostOne steps).Gives c') : c'.Supplies env.forest
          (chainOffers K (step :: steps)) ∧
          ∀ o σs, InfersChain K (step :: steps) σs → c.Counted o none →
            c'.Counted (σs.foldl (fun o t => o.multiply t.occurrence) o) none := by
      obtain ⟨hsupplies, hcounted⟩ := followSteps_fits hcall henv he.2 hd h
      refine ⟨hsupplies, fun o σs hσs hcount => ?_⟩
      rw [InfersChain] at hσs
      obtain ⟨σ, σs, hσ, hσs, rfl⟩ := hσs
      exact hcounted _ σs hσs (hdcount hσ hcount)
    obtain ⟨-, h⟩ | ⟨-, items, hitems, ordered, hordered, h⟩ := h
    · exact later hsupplies hcounted h
    · exact later (.order hitems hordered hsupplies)
        (fun hσ hcount => .order hitems hordered (hcounted hσ hcount)) h

theorem followMaps_fits (hcall : call.Sound) :
    {operands : List Expr} → {K L : Knowledge} → {env : Env} → env.Fits Γ L →
    AnnotatedChain Γ K operands → {c : Cursor} → c.Supplies env.forest K → {c' : Cursor} →
    (followMaps call env c operands).Gives c' → c'.Supplies env.forest (chainOffers K operands) ∧
      ∀ o size σs, InfersChain K operands σs → c.Counted o size →
        c'.Counted (σs.foldl (fun o t => o.multiply t.occurrence) o)
          (σs.foldl (fun size t => productOf size t.size) size)
  | [], K, L, env, henv, he, c, hc, c', h => by
    simp only [followMaps, Logged.gives_pure] at h
    subst h
    refine ⟨hc, fun o size σs hσs hcount => ?_⟩
    rw [InfersChain] at hσs
    exact hσs ▸ hcount
  | operand :: operands, K, L, env, henv, he, c, hc, c', h => by
    simp only [followMaps, Logged.gives_bind] at h
    rw [AnnotatedChain] at he
    obtain ⟨next, hnext, h⟩ := h
    have hoperand (size : Option Nat) (scoring : Bool) (pos : Nat) (item : Item)
      (hitem : K.Holds env.forest item ∧ item.Good)
        (d : Cursor) (hd : (operand.iterate call (env.focusOn size scoring pos item)).Gives d) :=
      Expr.iterate_fits hcall (henv.focusOn hitem) he.1 hd
    have hsupplies := Cursor.follow_supplies hc hnext fun size scoring pos item hitem d hd =>
      he.1.supplies (hoperand size scoring pos item hitem d hd)
    obtain ⟨hsupplies, hcounted⟩ := followMaps_fits hcall henv he.2 hsupplies h
    refine ⟨hsupplies, fun o size σs hσs hcount => ?_⟩
    rw [InfersChain] at hσs
    obtain ⟨σ, σs, hσ, hσs, rfl⟩ := hσs
    exact hcounted _ _ σs hσs
        (Cursor.follow_counted hc hnext hcount fun size scoring pos item hitem d hd =>
      (hoperand size scoring pos item hitem d hd σ hσ).counted)

end

/-! ### Results -/

/-- Right annotations are sound: wherever the cursor of an expression is drained, its static type
describes the items. -/
theorem Expr.Annotated.soundAt (hcall : call.Sound) (henv : env.Fits Γ K) {e : Expr}
    (he : e.Annotated Γ K) : e.SoundAt call env := by
  intro items hitems
  obtain ⟨c, hc, hitems⟩ := Logged.gives_bind.mp hitems
  exact ((Expr.iterate_fits hcall henv he hc _ he.infers).drain hitems).describes

theorem Cursor.OfType.of_instanceOf {forest : Forest} {τ : StaticType} {c : Cursor}
    {target : SeqType} (h : c.OfType forest τ) (hτ : τ.instanceOf target = true) :
    c.OfType forest (.ofSeqType target) :=
  fun scoring => (h scoring).of_instanceOf hτ

theorem Expr.iterate_meets (hcall : call.Sound) (henv : env.Fits Γ K) {target : SeqType} :
    {e : Expr} →
    e.Annotated Γ K → e.Meets target → {c : Cursor} → (e.iterate call env).Gives c →
    c.OfType env.forest (.ofSeqType target)
  | ⟨form, τ, l⟩, he, hmeets, c, h => by
    have direct (hτ : τ.instanceOf target = true) : c.OfType env.forest (.ofSeqType target) :=
      (Expr.iterate_fits hcall henv he h τ he.infers).of_instanceOf hτ
    cases form
    case conditional condition yes no =>
      rw [Expr.Meets] at hmeets
      rcases hmeets with hτ | ⟨hyes, hno⟩
      · exact direct hτ
      simp only [Expr.Annotated, Form.Annotated] at he
      simp only [Expr.iterate, Form.iterate, Logged.gives_locate, Logged.gives_bind,
        Logged.gives_ite] at h
      obtain ⟨b, -, ⟨-, h⟩ | ⟨-, h⟩⟩ := h
      · exact Expr.iterate_meets hcall henv he.2.2.1 hyes h
      · exact Expr.iterate_meets hcall henv he.2.2.2 hno h
    all_goals exact direct (by simpa only [Expr.Meets] using hmeets)

theorem Expr.value_meets (hcall : call.Sound) (henv : env.Fits Γ K) {target : SeqType} {e : Expr}
    (he : e.Annotated Γ K) (hmeets : e.Meets target) {items : List Item}
    (h : (e.value call env).Gives items) :
    (StaticType.ofSeqType target).Fits env.forest items True := by
  rcases Expr.value_gives h with ⟨operand, t, promote, τ, l, source, rfl, -, -⟩ | ⟨c, hc, hitems⟩
  · rw [Expr.Meets] at hmeets
    · exact (Expr.value_fits hcall henv he h τ he.infers).of_instanceOf hmeets
    · simp
  · exact (Expr.iterate_meets hcall henv he hmeets hc).drain hitems

end TreeQuery
