import TreeQuery.Proofs.Rewriting.Path
import TreeQuery.Proofs.Rewriting.Truth
/-!
# The rules of a node keep its value

The rules for calls, conjunctions and disjunctions, comparisons, conditionals and maps look at a
node and its operands. Wherever the node and what takes its place both have a value, the values are
equal (`Expr.optimize_value`). A constant operand decides a conjunction or a disjunction at once,
whatever stands in front of it, so `Joins` tells the answer without regard to the operand that is
looked at first; it is the same for all of them (`Joins.unique`).
-/

namespace TreeQuery

variable {call : Caller} {env : Env} {opt : Optimizer} {scope : Scope} {Γ : List Variable}
    {K : Knowledge} {e e' : Expr}
  {l : Option Location} {items items' : List Item}

/-- Neither the static type nor the place of an expression shows in its value. -/
theorem Expr.Delivers.of_form (hplace : call.IgnoresPlace) {form : Form} {τ τ' : StaticType}
    {l l' : Option Location} (h : Expr.Delivers call env ⟨form, τ, l⟩ items) :
    Expr.Delivers call env ⟨form, τ', l'⟩ items := by
  obtain ⟨c, hc, hclean, rfl⟩ := h
  simp only [iterate, Logged.gives_locate] at hc
  obtain ⟨c', hc', hsame⟩ := Form.iterate_place hplace l l' hc
  refine ⟨c', ?_, hsame.clean.mp hclean, hsame.delivered.symm⟩
  simpa only [iterate, Logged.gives_locate] using hc'

theorem Expr.Delivers.of_at? (hplace : call.IgnoresPlace) (h : (e.at? l).Delivers call env items) :
    e.Delivers call env items := by
  obtain ⟨form, τ, place⟩ := e
  exact h.of_form hplace

theorem Expr.delivers_ofBool {b : Bool} (h : ((Expr.ofBool b).at? l).Delivers call env items) :
    items = [.atomic (.boolean b)] :=
  h.of_literal (e := (Expr.ofBool b).at? l) rfl

/-! ### Conjunctions and disjunctions -/

/-- Whether `b` is what operands come to in a conjunction, or else in a disjunction, whichever of
them decides it. -/
def Joins (call : Caller) (env : Env) (isAnd : Bool) (es : List Expr) (b : Bool) : Prop :=
  (b = isAnd ∧ ∀ e ∈ es, (e.truth call env).Gives isAnd) ∨
    (b = !isAnd) ∧ ∃ e ∈ es, (e.truth call env).Gives !isAnd

section Joins

variable {isAnd b b' : Bool} {es fs es' fs' : List Expr}

theorem Joins.unique (h : Joins call env isAnd es b) (h' : Joins call env isAnd es b') :
    b = b' := by
  have clash (hall : ∀ e ∈ es, (e.truth call env).Gives isAnd)
      (hsome : ∃ e ∈ es, (e.truth call env).Gives !isAnd) : False := by
    obtain ⟨e, he, hgives⟩ := hsome
    have := (hall e he).unique hgives
    cases isAnd <;> cases this
  obtain ⟨rfl, h⟩ | ⟨rfl, h⟩ := h <;> obtain ⟨rfl, h'⟩ | ⟨rfl, h'⟩ := h'
  · rfl
  · exact (clash h h').elim
  · exact (clash h' h).elim
  · rfl

theorem joins_all : Joins call env isAnd es isAnd ↔
    ∀ e ∈ es, (e.truth call env).Gives isAnd := by simp [Joins]

theorem joins_some : Joins call env isAnd es (!isAnd) ↔
    ∃ e ∈ es, (e.truth call env).Gives !isAnd := by simp [Joins]

theorem joins_nil : Joins call env isAnd [] b ↔ b = isAnd := by simp [Joins]

theorem joins_single : Joins call env isAnd [e] b ↔ (e.truth call env).Gives b := by
  simp only [Joins, List.mem_singleton, forall_eq, exists_eq_left]
  constructor
  · rintro (⟨rfl, h⟩ | ⟨rfl, h⟩) <;> exact h
  · intro h
    by_cases hb : b = isAnd
    · exact .inl ⟨hb, hb ▸ h⟩
    · obtain rfl : b = !isAnd := Bool.eq_not.mpr hb
      exact .inr ⟨rfl, h⟩

theorem joins_append : Joins call env isAnd (es ++ fs) b ↔
    (b = isAnd ∧ Joins call env isAnd es isAnd ∧ Joins call env isAnd fs isAnd) ∨
    (b = !isAnd) ∧ (Joins call env isAnd es (!isAnd) ∨ Joins call env isAnd fs !isAnd) := by
  rw [joins_all, joins_all, joins_some, joins_some, Joins, List.forall_mem_append]
  simp only [List.mem_append, or_and_right, exists_or]

theorem Joins.append_mono (hes : ∀ b, Joins call env isAnd es b → Joins call env isAnd es' b)
    (hfs : ∀ b, Joins call env isAnd fs b → Joins call env isAnd fs' b)
    (h : Joins call env isAnd (es ++ fs) b) : Joins call env isAnd (es' ++ fs') b := by
  rw [joins_append] at h ⊢
  exact h.imp (And.imp_right (And.imp (hes _) (hfs _))) (And.imp_right (Or.imp (hes _) (hfs _)))

theorem allTrue_joins : {es : List Expr} → {b : Bool} → (allTrue call env es).Gives b →
    Joins call env true es b
  | [], _, h => joins_nil.mpr (Logged.gives_pure.mp h).symm
  | e :: es, b, h => by
    rw [← List.singleton_append, joins_append, joins_single, joins_single]
    simp only [allTrue, Logged.gives_bind] at h
    obtain ⟨first, hfirst, h⟩ := h
    cases first with
    | true =>
      have ih := allTrue_joins h
      cases b with
      | true => exact .inl ⟨rfl, hfirst, ih⟩
      | false => exact .inr ⟨rfl, .inr ih⟩
    | false =>
      obtain rfl : false = b := Logged.gives_pure.mp h
      exact .inr ⟨rfl, .inl hfirst⟩

theorem anyTrue_joins : {es : List Expr} → {b : Bool} → (anyTrue call env es).Gives b →
    Joins call env false es b
  | [], _, h => joins_nil.mpr (Logged.gives_pure.mp h).symm
  | e :: es, b, h => by
    rw [← List.singleton_append, joins_append, joins_single, joins_single]
    simp only [anyTrue, Logged.gives_bind] at h
    obtain ⟨first, hfirst, h⟩ := h
    cases first with
    | false =>
      have ih := anyTrue_joins h
      cases b with
      | false => exact .inl ⟨rfl, hfirst, ih⟩
      | true => exact .inr ⟨rfl, .inr ih⟩
    | true =>
      obtain rfl : true = b := Logged.gives_pure.mp h
      exact .inr ⟨rfl, .inl hfirst⟩

@[simp] theorem Form.filterFree_joined : (Form.joined isAnd es).filterFree = filterFreeAll es := by
  cases isAnd <;> simp only [joined, Bool.false_eq_true, if_true, if_false, filterFree]

theorem Form.iterate_joined {c : Cursor} (h : ((Form.joined isAnd es).iterate call env l).Gives c) :
    ∃ b, Joins call env isAnd es b ∧ c = .ofBool b := by
  cases isAnd with
  | true =>
    obtain ⟨b, hb, rfl⟩ := Logged.gives_map.mp h
    exact ⟨b, allTrue_joins hb, rfl⟩
  | false =>
    obtain ⟨b, hb, rfl⟩ := Logged.gives_map.mp h
    exact ⟨b, anyTrue_joins hb, rfl⟩

theorem Expr.truth_joined {τ : StaticType}
    (h : (Expr.truth call env ⟨.joined isAnd es, τ, l⟩).Gives b) : Joins call env isAnd es b := by
  obtain ⟨c, hc, hdecides⟩ := truth_iff.mp h
  simp only [iterate, Logged.gives_locate] at hc
  obtain ⟨b', hjoins, rfl⟩ := Form.iterate_joined hc
  exact Option.some.inj (Cursor.decides_single.mp hdecides) ▸ hjoins

theorem Expr.Delivers.joins {τ : StaticType}
    (h : Expr.Delivers call env ⟨.joined isAnd es, τ, l⟩ items) :
    ∃ b, Joins call env isAnd es b ∧ items = [.atomic (.boolean b)] := by
  obtain ⟨c, hc, -, rfl⟩ := h
  simp only [iterate, Logged.gives_locate] at hc
  obtain ⟨b, hjoins, rfl⟩ := Form.iterate_joined hc
  exact ⟨b, hjoins, Cursor.delivered_ofList _⟩

/-- Without its constant operands the whole has the same answer, and the other one if a constant
decides it. -/
theorem dropConstants_joins : {es : List Expr} → {es' : Option (List Expr)} → {b : Bool} →
    (dropConstants isAnd es).Gives es' →
    Joins call env isAnd es b → (∀ kept, es' = some kept → Joins call env isAnd kept b) ∧
    (es' = none → b = !isAnd)
  | [], _, _, h, hb => by
    obtain rfl := Logged.gives_pure.mp h
    exact ⟨fun _ hkept => Option.some.inj hkept ▸ hb, fun hnone => by cases hnone⟩
  | e :: es, es', b, h, hb => by
    have hconstant {t : Bool} (ht : e.constantTruth = .ok t) {b' : Bool}
        (hb' : (e.truth call env).Gives b') : b' = t :=
      Expr.constantTruth_eq ht hb'
    simp only [dropConstants, Logged.gives_ite, Logged.gives_bind, Logged.gives_pure,
      Logged.gives_lift, gives_remark] at h
    rw [← List.singleton_append, joins_append, joins_single, joins_single] at hb
    obtain ⟨-, rest, hrest, rfl⟩ | ⟨-, truth, htruth, ⟨hne, -, -, rfl⟩ | ⟨heq, -, -, h⟩⟩ := h
    · have ih {b : Bool} (hb : Joins call env isAnd es b) := dropConstants_joins hrest hb
      cases rest with
      | none =>
        refine ⟨by simp, fun _ => ?_⟩
        obtain ⟨rfl, -, hes⟩ | ⟨hb, -⟩ := hb
        · exact (ih hes).2 rfl
        · exact hb
      | some rest =>
        refine ⟨fun kept hkept => ?_, by simp⟩
        obtain rfl : e :: rest = kept := Option.some.inj hkept
        rw [← List.singleton_append, joins_append, joins_single, joins_single]
        exact hb.imp (And.imp_right (And.imp_right fun h => (ih h).1 rest rfl))
          (And.imp_right (Or.imp_right fun h => (ih h).1 rest rfl))
    · refine ⟨by simp, fun _ => ?_⟩
      obtain ⟨-, he, -⟩ | ⟨hb, -⟩ := hb
      · exact absurd (hconstant htruth he).symm (bne_iff_ne.mp hne)
      · exact hb
    · obtain rfl : isAnd = truth := (by simpa using heq : truth = isAnd).symm
      refine dropConstants_joins h ?_
      obtain ⟨rfl, -, hes⟩ | ⟨rfl, he | hes⟩ := hb
      · exact hes
      · have := hconstant htruth he
        simp at this
      · exact hes

end Joins

section Rules

variable (hcall : call.Sound) (hplace : call.IgnoresPlace) (hopt : opt.Sound)
    (henv : env.Fits scope.visible K)
  (hkeeps : opt.KeepsTruth call env scope K)

section Truth

include hkeeps

theorem flattenOperands_joins {isAnd : Bool} :
    {es es' : List Expr} → AnnotatedAll scope.visible K es →
    filterFreeAll es = true → (flattenOperands opt scope isAnd es).Gives es' →
    filterFreeAll es' = true ∧ ∀ b, Joins call env isAnd es b → Joins call env isAnd es' b
  | [], _, _, _, h => by
    obtain rfl := Logged.gives_pure.mp h
    exact ⟨rfl, fun _ => id⟩
  | e :: es, es', hann, hfree, h => by
    rw [AnnotatedAll] at hann
    rw [filterFreeAll, Bool.and_eq_true] at hfree
    obtain ⟨⟨form, τ, l⟩, rest, he, hrest, h⟩ := flattenOperands_cons h
    obtain ⟨hfree', htruth⟩ := hkeeps hann.1 hfree.1 he
    obtain ⟨hrestFree, hrestJoins⟩ := flattenOperands_joins hann.2 hfree.2 hrest
    have append (inner : List Expr) (hinner : filterFreeAll inner = true)
        (hjoins : ∀ b, (Expr.truth call env ⟨form, τ, l⟩).Gives b → Joins call env isAnd inner b) :
        filterFreeAll (inner ++ rest) = true ∧
          ∀ b, Joins call env isAnd (e :: es) b → Joins call env isAnd (inner ++ rest) b := by
      refine ⟨filterFreeAll_iff.mpr ?_, fun b hb => ?_⟩
      · exact List.forall_mem_append.mpr
          ⟨filterFreeAll_iff.mp hinner, filterFreeAll_iff.mp hrestFree⟩
      · rw [← List.singleton_append] at hb
        exact Joins.append_mono (fun b hb => hjoins b (htruth b (joins_single.mp hb))) hrestJoins hb
    obtain rfl | ⟨inner, hform, rfl⟩ := h
    · exact append [⟨form, τ, l⟩] (by simpa [filterFreeAll] using hfree') fun b hb =>
        joins_single.mpr hb
    · subst hform
      exact append inner (by rwa [Expr.filterFree, Form.filterFree_joined] at hfree') fun b hb =>
        Expr.truth_joined hb

include hcall hplace hopt henv

theorem optimizeCall_value {f : Builtin} {args : List Expr} {τ : StaticType}
    {place : Option Location} (hann : AnnotatedAll scope.visible K args)
    (hfree : filterFreeAll args = true) (h : (optimizeCall opt scope f args l).Gives e')
    (hitems : Expr.Delivers call env ⟨.call f args, τ, place⟩ items)
    (hitems' : e'.Delivers call env items') : items = items' := by
  obtain ⟨args', hargs', h⟩ := optimizeCall_cases h
  -- the value is that of the call of the argument that the rules look at
  obtain ⟨hann, hitems⟩ : AnnotatedAll scope.visible K args' ∧
      Expr.Delivers call env ⟨.call f args', τ, place⟩ items := by
    obtain rfl | ⟨hf, arg, arg', rfl, rfl, hsimple⟩ := hargs'
    · exact ⟨hann, hitems⟩
    · rw [AnnotatedAll] at hann
      rw [filterFreeAll, Bool.and_eq_true] at hfree
      have htruth := (hkeeps hann.1 hfree.1 hsimple).2
      refine ⟨⟨hopt.simplify hann.1 hsimple, trivial⟩, ?_⟩
      obtain rfl | rfl := hf <;>
      · obtain ⟨_, ⟨b, hb, rfl⟩, rfl⟩ := (Expr.delivers_call rfl).mp hitems
        exact (Expr.delivers_call rfl).mpr ⟨_, ⟨b, htruth b hb, rfl⟩, rfl⟩
  obtain ⟨rfl, -⟩ | ⟨arg', new, place', rfl, hfold, rfl⟩ := h
  · exact (hitems.of_form hplace).unique hitems'
  · have hmeasures : f.measures = true := by cases f <;> first | rfl | cases hfold
    obtain ⟨x, hx, rfl⟩ := (Expr.delivers_call hmeasures).mp hitems
    exact (foldCall_answers hcall henv hann.1 hfold hx (hitems'.of_at? hplace)).symm

theorem optimizeLogic_value {isAnd : Bool} {es : List Expr} {τ : StaticType}
    {place : Option Location} (hann : AnnotatedAll scope.visible K es)
    (hfree : filterFreeAll es = true) (h : (optimizeLogic opt scope isAnd es l).Gives e')
    (hitems : Expr.Delivers call env ⟨.joined isAnd es, τ, place⟩ items)
    (hitems' : e'.Delivers call env items') : items = items' := by
  obtain ⟨b, hb, rfl⟩ := hitems.joins
  have plain {fs : List Expr} {σ : StaticType} (hb : Joins call env isAnd fs b)
    (h : e' = ⟨.joined isAnd fs, σ, l⟩) :
      [.atomic (.boolean b)] = items' := by
    obtain ⟨b', hb', rfl⟩ := Expr.Delivers.joins (h ▸ hitems')
    rw [hb.unique hb']
  obtain ⟨flat, hflat, h⟩ := optimizeLogic_cases h
  obtain ⟨hflatFree, hflatJoins⟩ := flattenOperands_joins hkeeps hann hfree hflat
  have hb := hflatJoins b hb
  obtain rfl | ⟨hkept, rfl⟩ | ⟨hkept, rfl⟩ | ⟨operand, hkept, h⟩ | ⟨kept, hkept, rfl⟩ := h
  · exact plain hb rfl
  · rw [Expr.delivers_ofBool hitems', (dropConstants_joins hkept hb).2 rfl]
  · rw [Expr.delivers_ofBool hitems', joins_nil.mp ((dropConstants_joins hkept hb).1 _ rfl)]
  · have hjoins := (dropConstants_joins hkept hb).1 _ rfl
    have hmem : operand ∈ flat :=
      (dropConstants_sublist hkept).subset (List.mem_singleton_self operand)
    have hoperand : (Expr.call .boolean [operand]).Delivers call env [.atomic (.boolean b)] :=
      (Expr.delivers_call rfl).mpr ⟨_, ⟨b, joins_single.mp hjoins, rfl⟩, rfl⟩
    refine optimizeCall_value hcall hplace hopt henv hkeeps ?_ ?_ h hoperand hitems'
    · exact dropConstants_annotated hkept (flattenOperands_annotated hopt hflat hann)
    · simpa [filterFreeAll] using filterFreeAll_iff.mp hflatFree operand hmem
  · exact plain ((dropConstants_joins hkept hb).1 _ rfl) rfl

/-! ### Conditionals -/

omit hcall hplace hopt henv hkeeps in
theorem Expr.Delivers.branch {condition yes no : Expr} {τ : StaticType} {place : Option Location}
    (h : Expr.Delivers call env ⟨.conditional condition yes no, τ, place⟩ items) :
    ∃ b, (condition.truth call env).Gives b ∧
    (if b = true then yes else no).Delivers call env items := by
  obtain ⟨c, hc, hclean, rfl⟩ := h
  simp only [iterate, Form.iterate, Logged.gives_locate, Logged.gives_bind] at hc
  obtain ⟨b, hb, hc⟩ := hc
  refine ⟨b, hb, c, ?_, hclean, rfl⟩
  cases b <;> exact hc

omit hcall hplace hopt henv in
theorem optimizeConditional_value {condition yes no : Expr} {τ : StaticType}
    {place : Option Location} (hann : condition.Annotated scope.visible K)
    (hfree : condition.filterFree = true)
    (h : (optimizeConditional opt scope condition yes no l).Gives e')
    (hitems : Expr.Delivers call env ⟨.conditional condition yes no, τ, place⟩ items)
    (hitems' : e'.Delivers call env items') : items = items' := by
  obtain ⟨b, hb, hbranch⟩ := hitems.branch
  obtain ⟨condition', hsimple, h⟩ := optimizeConditional_cases h
  have hb := (hkeeps hann hfree hsimple).2 b hb
  obtain ⟨b', hb', rfl⟩ | rfl := h
  · obtain rfl := Expr.constantTruth_eq hb' hb
    exact hbranch.unique hitems'
  · obtain ⟨b', hb', hbranch'⟩ := hitems'.branch
    obtain rfl := hb.unique hb'
    exact hbranch.unique hbranch'

end Truth

/-! ### Comparisons -/

section Comparison

variable {style : CompareStyle} {op : CompareOp} {left right : Expr}

theorem Expr.Delivers.compares {τ : StaticType} {place : Option Location}
    (h : Expr.Delivers call env ⟨.comparison style op left right, τ, place⟩ items) : ∃ vs ws,
    (left.atoms call env).Gives vs ∧ (right.atoms call env).Gives ws ∧
    compareAtomics style op vs ws = .ok items := by
  obtain ⟨c, hc, -, rfl⟩ := h
  simp only [iterate, Form.iterate, Logged.gives_locate, Logged.gives_bind, Logged.gives_map,
    Logged.gives_lift] at hc
  obtain ⟨xs, hxs, vs, hvs, ys, hys, ws, hws, result, hresult, rfl⟩ := hc
  refine ⟨vs, ws, ?_, ?_, ?_⟩
  · simp only [atoms, Logged.gives_bind, Logged.gives_lift]
    exact ⟨xs, hxs, hvs⟩
  · simp only [atoms, Logged.gives_bind, Logged.gives_lift]
    exact ⟨ys, hys, hws⟩
  · rwa [Cursor.delivered_ofList]

theorem compareGeneral_swap {vs ws : List Atomic} {b b' : Bool}
    (h : compareGeneral op vs ws = .ok b) (h' : compareGeneral op.swap ws vs = .ok b') :
    b = b' := by
  cases b <;> cases b'
  · rfl
  · obtain ⟨w, hw, v, hv, hpair⟩ := compareGeneral_true h'
    have hpair' := Atomic.comparePair_swap (compareGeneral_false h v hv w hw)
    exact Except.ok.inj (hpair'.symm.trans hpair)
  · obtain ⟨v, hv, w, hw, hpair⟩ := compareGeneral_true h
    have hpair' := compareGeneral_false h' w hw v hv
    exact Except.ok.inj ((Atomic.comparePair_swap hpair).symm.trans hpair')
  · rfl

theorem compareAtomics_swap {vs ws : List Atomic} (h : compareAtomics style op vs ws = .ok items)
    (h' : compareAtomics style op.swap ws vs = .ok items') : items = items' := by
  cases style with
  | general =>
    obtain ⟨b, hb, rfl⟩ := map_eq_ok.mp h
    obtain ⟨b', hb', rfl⟩ := map_eq_ok.mp h'
    rw [compareGeneral_swap hb hb']
  | value =>
    cases vs with
    | nil => cases ws <;> exact Except.ok.inj (h.symm.trans h')
    | cons v vs =>
      cases ws with
      | nil => exact Except.ok.inj (h.symm.trans h')
      | cons w ws =>
        obtain ⟨rfl, rfl⟩ : vs = [] ∧ ws = [] := by
          cases vs <;> cases ws <;> first | exact ⟨rfl, rfl⟩ | cases h
        obtain ⟨b, hb, rfl⟩ := map_eq_ok.mp h
        obtain ⟨b', hb', rfl⟩ := map_eq_ok.mp h'
        rw [Except.ok.inj ((Atomic.compare_swap hb).symm.trans hb')]

/-- Comparing untyped values as strings makes no difference where the values compare. -/
theorem compare_untypedAsString {a b : Atomic} {r r' : Bool}
    (h : Atomic.compare op (untypedAsString a) (untypedAsString b) = .ok r)
    (h' : Atomic.compare op a b = .ok r') : r = r' := by
  cases a <;> cases b <;> simp_all [untypedAsString, Atomic.compare, Atomic.number?, Atomic.text?]

theorem foldComparison_value {vs ws : List Atomic}
    (h : (foldComparison style op left right vs ws l).Gives e')
    (hitems : compareAtomics style op vs ws = .ok items) (hitems' : e'.Delivers call env items') :
    items = items' := by
  obtain ⟨b, rfl, ⟨rfl, hb⟩ | ⟨rfl, v, w, rfl, rfl, hb⟩⟩ | ⟨rfl, hempty, rfl⟩ :=
    foldComparison_cases h
  · obtain ⟨b', hb', rfl⟩ := map_eq_ok.mp hitems
    rw [hitems'.of_literal rfl, Except.ok.inj (hb'.symm.trans hb)]
    rfl
  · obtain ⟨b', hb', rfl⟩ := map_eq_ok.mp hitems
    rw [hitems'.of_literal rfl, compare_untypedAsString hb' hb]
    rfl
  · rw [hitems'.of_literal rfl]
    obtain rfl | rfl := hempty
    · exact (Except.ok.inj hitems).symm
    · cases vs <;> exact (Except.ok.inj hitems).symm

include hcall hplace henv

theorem optimizeComparison_value {τ : StaticType} {place : Option Location}
    (hleft : left.Annotated scope.visible K) (hright : right.Annotated scope.visible K)
    (h : (optimizeComparison scope style op left right l).Gives e')
    (hitems : Expr.Delivers call env ⟨.comparison style op left right, τ, place⟩ items)
    (hitems' : e'.Delivers call env items') : items = items' := by
  obtain ⟨vs, ws, hvs, hws, hcompare⟩ := hitems.compares
  obtain rfl | rfl | ⟨vs', ws', folded, place', hvs', hws', hfolded, rfl⟩ |
    ⟨rfl, ⟨hzero, -⟩, rfl⟩ := optimizeComparison_cases h
  · exact (hitems.of_form hplace).unique hitems'
  · obtain ⟨ws', vs', hws', hvs', hcompare'⟩ := hitems'.compares
    rw [← hvs.unique hvs', ← hws.unique hws'] at hcompare'
    exact compareAtomics_swap hcompare hcompare'
  · rw [← Expr.atoms_literal hvs' hvs, ← Expr.atoms_literal hws' hws] at hcompare
    exact foldComparison_value hfolded hcompare (hitems'.of_at? hplace)
  · rw [Expr.delivers_ofBool hitems']
    obtain ⟨b, hb, rfl⟩ := map_eq_ok.mp hcompare
    cases b with
    | false => rfl
    | true =>
      obtain ⟨v, hv, w, hw, -⟩ := compareGeneral_true hb
      obtain hzero | hzero := hzero
      · simp [Expr.atoms_zero hcall henv hleft hzero hvs] at hv
      · simp [Expr.atoms_zero hcall henv hright hzero hws] at hw

end Comparison

/-! ### Maps -/

/-- What operands make of items, each of those of the one before. -/
def FollowAll (call : Caller) (env : Env) : List Expr → List Item → List Item → Prop
  | [], xs, ys => xs = ys
  | e :: es, xs, ys => ∃ zs, e.Follows call env xs zs ∧ FollowAll call env es zs ys

def MapsTo (call : Caller) (env : Env) : List Expr → List Item → Prop
  | [], _ => False
  | first :: rest, ys => ∃ xs, first.Delivers call env xs ∧ FollowAll call env rest xs ys

section Map

theorem FollowAll.unique : {es : List Expr} → {xs ys zs : List Item} → FollowAll call env es xs ys →
    FollowAll call env es xs zs → ys = zs
  | [], _, _, _, h, h' => Eq.trans (Eq.symm h) h'
  | _ :: _, _, _, _, ⟨us, hus, h⟩, ⟨us', hus', h'⟩ => by
    obtain rfl := Expr.Maps.unique hus hus'
    exact FollowAll.unique h h'

theorem FollowAll.of_nil : {es : List Expr} → {ys : List Item} →
    FollowAll call env es [] ys → ys = []
  | [], _, h => Eq.symm h
  | _ :: _, _, ⟨zs, hzs, h⟩ => by
    obtain rfl : zs = [] := hzs
    exact FollowAll.of_nil h

theorem followMaps_followAll : {es : List Expr} → {c c' : Cursor} →
    (followMaps call env c es).Gives c' →
    Clean (c'.deliveries env.scoring) → Clean (c.deliveries env.scoring) ∧
      FollowAll call env es (delivered (c.deliveries env.scoring))
        (delivered (c'.deliveries env.scoring))
  | [], c, c', h, hclean => by
    obtain rfl := Logged.gives_pure.mp h
    exact ⟨hclean, rfl⟩
  | e :: es, c, c', h, hclean => by
    simp only [followMaps, Logged.gives_bind] at h
    obtain ⟨next, hnext, h⟩ := h
    obtain ⟨hnextClean, hfollows⟩ := followMaps_followAll h hclean
    obtain ⟨hc, hfirst⟩ := Cursor.follow_follows hnext hnextClean
    exact ⟨hc, _, hfirst, hfollows⟩

theorem Expr.Delivers.mapsTo {es : List Expr} {τ : StaticType} {place : Option Location}
    (h : Expr.Delivers call env ⟨.map es, τ, place⟩ items) : MapsTo call env es items := by
  obtain ⟨c, hc, hclean, rfl⟩ := h
  simp only [iterate, Logged.gives_locate] at hc
  cases es with
  | nil => exact absurd hc Logged.gives_failWith
  | cons first rest =>
    simp only [Form.iterate, Logged.gives_bind] at hc
    obtain ⟨start, hstart, h⟩ := hc
    obtain ⟨hstartClean, hfollows⟩ := followMaps_followAll h hclean
    exact ⟨_, ⟨start, hstart, hstartClean, rfl⟩, hfollows⟩

theorem MapsTo.unique {es : List Expr} (h : MapsTo call env es items)
    (h' : MapsTo call env es items') : items = items' := by
  cases es with
  | nil => exact h.elim
  | cons first rest =>
    obtain ⟨xs, hxs, h⟩ := h
    obtain ⟨xs', hxs', h'⟩ := h'
    obtain rfl := hxs.unique hxs'
    exact h.unique h'

/-- Without the context item in front the operands make the same of the item in focus. -/
theorem dropContextItems_mapsTo (hc : call.IgnoresFocus) :
    {es es' : List Expr} → (dropContextItems es).Gives es' →
    MapsTo call env es items → MapsTo call env es' items
  | [], _, h, hitems | [_], _, h, hitems => by
    unfold dropContextItems at h
    exact Logged.gives_pure.mp h ▸ hitems
  | first :: second :: rest, es', h, hitems => by
    obtain ⟨hfirst, hsecond, h⟩ | rfl := dropContextItems_cons h
    · refine dropContextItems_mapsTo hc h ?_
      obtain ⟨xs, ⟨c, hgives, -, rfl⟩, zs, hzs, hrest⟩ := hitems
      obtain ⟨form, τ, place⟩ := first
      cases form <;> simp [Expr.isContextItem] at hfirst
      simp only [Expr.iterate, Form.iterate, Logged.gives_locate, Logged.gives_map] at hgives
      obtain ⟨x, hx, rfl⟩ := hgives
      have hsingle : delivered ((Cursor.single x).deliveries env.scoring) = [x] :=
        Cursor.delivered_ofList [x]
      rw [hsingle] at hzs
      exact ⟨zs, (Expr.follows_single hc hsecond (Env.contextItem_gives hx)).mp hzs, hrest⟩
    · exact hitems

include hcall henv

theorem FollowAll.nil_of_isZero :
    {es : List Expr} → {L : Knowledge} → AnnotatedChain scope.visible L es →
    es.any (·.type.isZero) = true → {xs ys : List Item} →
    (∀ x ∈ xs, L.Holds env.forest x ∧ x.Good) →
    FollowAll call env es xs ys → ys = []
  | e :: es, L, hann, hzero, xs, ys, hxs, ⟨zs, hzs, h⟩ => by
    rw [AnnotatedChain] at hann
    cases he : e.type.isZero with
    | true =>
      obtain rfl := hzs.nil_of_isZero hcall henv hann.1 hxs he
      exact h.of_nil
    | false =>
      exact FollowAll.nil_of_isZero hann.2 (by simpa [he] using hzero)
        (hzs.offers hcall henv hann.1 hxs) h

theorem MapsTo.nil_of_isZero {es : List Expr} (hann : AnnotatedChain scope.visible K es)
    (hzero : es.any (·.type.isZero) = true) (h : MapsTo call env es items) : items = [] := by
  cases es with
  | nil => exact h.elim
  | cons first rest =>
    obtain ⟨xs, hxs, h⟩ := h
    rw [AnnotatedChain] at hann
    obtain ⟨hfits, hoffers⟩ := hxs.fits hcall henv hann.1
    cases hfirst : first.type.isZero with
    | true =>
      have hnil : xs = [] := by
        rw [List.eq_nil_iff_forall_not_mem]
        intro x hx
        exact absurd hfirst (Bool.eq_false_iff.mp (hfits.isZero_eq_false hx))
      exact (hnil ▸ h).of_nil
    | false => exact FollowAll.nil_of_isZero hcall henv hann.2 (by simpa [hfirst] using hzero) hoffers h

include hplace

theorem optimizeMap_value (hc : call.IgnoresFocus) {es : List Expr} {τ : StaticType}
    {place : Option Location} (hann : AnnotatedChain scope.visible K es)
    (h : (optimizeMap scope es l).Gives e')
    (hitems : Expr.Delivers call env ⟨.map es, τ, place⟩ items)
    (hitems' : e'.Delivers call env items') : items = items' := by
  obtain ⟨kept, hkept, h⟩ := optimizeMap_cases h
  obtain ⟨hmaps, hann⟩ : MapsTo call env kept items ∧ AnnotatedChain scope.visible K kept := by
    obtain rfl | ⟨-, hdrop⟩ := hkept
    · exact ⟨hitems.mapsTo, hann⟩
    · exact ⟨dropContextItems_mapsTo hc hdrop hitems.mapsTo, dropContextItems_annotated hdrop hann⟩
  obtain ⟨operand, rfl, rfl⟩ | ⟨-, rfl⟩ | ⟨⟨hzero, -⟩, place', rfl⟩ := h
  · obtain ⟨xs, hxs, rfl⟩ := hmaps
    exact hxs.unique (hitems'.of_at? hplace)
  · exact hmaps.unique hitems'.mapsTo
  · rw [hitems'.eq_nil, hmaps.nil_of_isZero hcall henv hann hzero]

end Map

end Rules

/-! ### Nodes -/

/-- Whether the rules of a form only look at the node and its operands: those for truth values,
comparisons and maps. -/
def Form.isLocal : Form → Bool
  | .conjunction _ | .disjunction _ | .call .. | .comparison .. | .conditional .. | .map _ => true
  | _ => false

/-- The rules keep the value of a node: wherever the node and what becomes of it both have a value,
the values are equal. No filter may be nested in the node. -/
theorem Expr.optimize_value (callDepth depth : Nat) (hlocal : e.form.isLocal = true)
    (henv : env.Fits scope.visible K) (hann : e.form.Annotated scope.visible K)
    (hfree : e.form.filterFree = true) (h : (e.optimize (optimizerWithin depth) scope).Gives e')
    (hitems : (e.value (callWithin callDepth) env).Gives items)
    (hitems' : (e'.value (callWithin callDepth) env).Gives items') : items = items' := by
  have hcall := callWithin_sound callDepth
  have hplace := callWithin_ignoresPlace callDepth
  have hopt := optimizerWithin_sound depth
  have hkeeps : (optimizerWithin depth).KeepsTruth (callWithin callDepth) env scope K :=
    optimizerWithin_keepsTruth hcall hplace henv depth
  have hdelivers : e.Delivers (callWithin callDepth) env items :=
    .of_drained (Expr.value_iff_drained.mp hitems)
  have hdelivers' : e'.Delivers (callWithin callDepth) env items' :=
    .of_drained (Expr.value_iff_drained.mp hitems')
  obtain ⟨form, τ, l⟩ := e
  cases form <;> simp only [Form.isLocal, Bool.false_eq_true] at hlocal <;>
    simp only [Form.Annotated, Form.filterFree, Bool.and_eq_true] at hann hfree
  case conjunction es =>
    exact optimizeLogic_value hcall hplace hopt henv hkeeps hann hfree h hdelivers hdelivers'
  case disjunction es =>
    exact optimizeLogic_value hcall hplace hopt henv hkeeps hann hfree h hdelivers hdelivers'
  case call f args =>
    exact optimizeCall_value hcall hplace hopt henv hkeeps hann hfree h hdelivers hdelivers'
  case comparison style op left right =>
    exact optimizeComparison_value hcall hplace henv hann.1 hann.2 h hdelivers hdelivers'
  case conditional condition yes no =>
    exact optimizeConditional_value hkeeps hann.1 hfree.1.1 h hdelivers hdelivers'
  case map es => exact optimizeMap_value hcall hplace henv (callWithin_ignoresFocus callDepth) hann h hdelivers hdelivers'

/-- A conjunction of a constant and a count of known size is a constant itself. -/
theorem Expr.optimize_value_conjunction :
    let count : Expr := .call .count [.literal [.integer 1, .integer 2]]
    let both : Expr := .of (.conjunction [.ofBool true, count])
    let env := Env.ofContext { forest := Forest.empty false }
    (both.optimize (optimizerWithin 2) ⟨true, none, []⟩).Gives (.ofBool true) ∧ ∃ items items',
      (both.value (callWithin 0) env).Gives items ∧
      ((Expr.ofBool true).value (callWithin 0) env).Gives items' ∧
      items = items' := by
  intro count both env
  have folded : (both.optimize (optimizerWithin 2) ⟨true, none, []⟩).Gives (.ofBool true) := rfl
  have found : (both.value (callWithin 0) env).Gives [.atomic (.boolean true)] := rfl
  have found' : ((Expr.ofBool true).value (callWithin 0) env).Gives [.atomic (.boolean true)] := rfl
  have fits : env.Fits [] fun _ => False := ⟨⟨nofun⟩, nofun, nofun⟩
  have annotated : both.form.Annotated [] fun _ => False :=
    ⟨annotated_ofBool, annotated_call ⟨annotated_literal (by decide), trivial⟩, trivial⟩
  exact ⟨folded, _, _, found, found', optimize_value 0 2 rfl fits annotated rfl folded found found'⟩

end TreeQuery
