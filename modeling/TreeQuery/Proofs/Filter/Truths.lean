import TreeQuery.Proofs.Filter.Twins
import TreeQuery.Proofs.Filter.Verdict
/-!
# Predicates of which the truth counts

A predicate that cannot be a number holds as its truth says. So it may be simplified as a truth, and
a conjunction that does not ask for the position comes to its operands one after the other.
-/

namespace TreeQuery

variable {call : Caller} {env : Env} {e e' arg : Expr} {b b' : Bool}

/-! ### Verdict and truth -/

theorem Decides.decidesAt {ds : List Delivery} {position : Nat} (h : Decides ds b)
    (hnumber : ∀ v score, ds = [(.ok (.atomic v), score)] → v.number? = none) :
    DecidesAt position ds b := by
  cases h with
  | nothing => exact .nothing
  | atomic => exact .atomic (hnumber _ _ rfl)
  | node => exact .node

theorem DecidesAt.decides {ds : List Delivery} {position : Nat} (h : DecidesAt position ds b)
    (hnumber : ∀ v score, ds = [(.ok (.atomic v), score)] → v.number? = none) : Decides ds b := by
  cases h with
  | nothing => exact .nothing
  | number h => cases (hnumber _ _ rfl).symm.trans h
  | atomic => exact .atomic
  | node => exact .node

theorem Expr.holds_iff_truth (sound : e.SoundAt call env) (hnumber : e.type.mayBeNumber = false) :
    e.Holds call env b ↔ (e.truth call env).Gives b := by
  rw [holds_iff, truth_iff]
  refine exists_congr fun c => and_congr_right fun hc => ?_
  have hno (v : Atomic) (score : Option Number)
      (h : c.deliveries env.scoring = [(.ok (.atomic v), score)]) : v.number? = none :=
    sound.number?_eq_none hnumber hc h
  exact ⟨fun h => h.decides hno, fun h => h.decidesAt hno⟩

theorem Expr.holds_call {f : Builtin} (hf : f.measures = true) {args : List Expr} {τ : StaticType}
    {l : Option Location} : Expr.Holds call env ⟨.call f (arg :: args), τ, l⟩ b ↔
      ∃ x, f.Answers call env arg x ∧ DecidesAt env.focus.position [(.ok x, none)] b := by
  simp only [holds_iff, iterate, Form.iterate, Logged.gives_locate, callBuiltin_iff hf]
  constructor
  · rintro ⟨c, ⟨x, hx, rfl⟩, hdecides⟩
    exact ⟨x, hx, Cursor.deliveries_single x ▸ hdecides⟩
  · rintro ⟨x, hx, hdecides⟩
    exact ⟨_, ⟨x, hx, rfl⟩, (Cursor.deliveries_single x).symm ▸ hdecides⟩

theorem Expr.holds_boolean {args : List Expr} {τ : StaticType} {l : Option Location} :
    Expr.Holds call env ⟨.call .boolean (arg :: args), τ, l⟩ b ↔ (arg.truth call env).Gives b := by
  rw [holds_call rfl]
  constructor
  · rintro ⟨x, ⟨b', hb', rfl⟩, hdecides⟩
    obtain rfl : b = b' := hdecides.unique (.atomic rfl)
    exact hb'
  · exact fun hb => ⟨_, ⟨b, hb, rfl⟩, .atomic rfl⟩

/-! ### Simplified predicates -/

theorem ItemType.mayBeNumber_of_isNode {t : ItemType} (h : t.isNode = true) :
    t.mayBeNumber = false := by
  cases t <;> first | rfl | cases h

section

variable {opt : Optimizer} {scope : Scope} {L : Knowledge} {most : Nat} {P : Item → Prop}
    {Written : Expr → Prop}
  (hplace : call.IgnoresPlace) (hcall : call.Sound) (henv : env.Fits scope.visible L)

include hcall henv in
/-- What takes the place of a predicate without filters has its verdict. -/
theorem simplerTruth_holds (he : e.Annotated scope.visible L) (hfree : e.filterFree = true)
    (h : (simplerTruth opt .predicate scope e).Gives (some e')) (hb : e.Holds call env b) :
    e'.Holds call env b := by
  obtain ⟨form, τ, l⟩ := e
  obtain ⟨hform, hnumber⟩ | ⟨hform | ⟨hnever, -⟩, hnode⟩ | ⟨hnever, -⟩ | ⟨root, es, hform, -⟩ :=
    simplerTruth_cases h
  · obtain rfl : form = .call .boolean [e'] := hform
    simp only [Expr.Annotated, Form.Annotated, AnnotatedAll] at he
    exact (Expr.holds_iff_truth (he.2.1.soundAt hcall henv) hnumber).mpr (Expr.holds_boolean.mp hb)
  · obtain rfl : form = .call .exists [e'] := hform
    simp only [Expr.Annotated, Form.Annotated, AnnotatedAll] at he
    obtain ⟨x, ⟨b', c, hc, hbegins, rfl⟩, hdecides⟩ := (Expr.holds_call rfl).mp hb
    obtain rfl : b = b' := hdecides.unique (.atomic rfl)
    have hnumber : e'.type.mayBeNumber = false := by
      rw [StaticType.mayBeNumber, ItemType.mayBeNumber_of_isNode hnode, Bool.and_false]
    exact (Expr.holds_iff_truth (he.2.1.soundAt hcall henv) hnumber).mpr
      (Expr.truth_iff.mpr ⟨c, hc, decides_of_begins hcall henv he.2.1 hnode hc hbegins⟩)
  · cases hnever
  · cases hnever
  · obtain rfl : form = .filter root es := hform
    cases hfree

end

/-! ### Forms of simplified predicates -/

section

variable {opt : Optimizer} {scope : Scope} {Written : Expr → Prop} {l : Option Location}

/-- Whether what an optimizer makes of predicates that are formed of what is written is formed of
it, and still written if it is no truth value. -/
def Optimizer.KeepsForm (scope : Scope) (Written : Expr → Prop) (opt : Optimizer) : Prop :=
  ∀ {mode : TruthMode} {e e' : Expr}, e.form.Formed Written → (opt.simplify mode scope e).Gives e' →
    e'.form.Formed Written ∧ (Written e ∨ e.type = .boolean → Written e' ∨ e'.type = .boolean)

variable (hparts : ∀ e, Written e → ∀ part ∈ e.form.parts, Written part)
    (hfree : ∀ e, Written e → e.filterFree = true)
  (hmoved : ∀ e l, Written e → Written (e.at? l))

theorem optimizeCall_exists_formed (h : (optimizeCall opt scope .exists [arg] l).Gives e)
    (harg : Written arg) : e.form.Formed Written ∧ e.type = .boolean := by
  obtain ⟨args', rfl | ⟨hnever, -⟩, ⟨rfl, -⟩ | ⟨arg', new, place, hone, hfold, rfl⟩⟩ :=
    optimizeCall_cases h
  · exact ⟨.inr ⟨rfl, List.forall_mem_singleton.mpr harg⟩, rfl⟩
  · simp only [foldCall] at hfold
    obtain ⟨-, hfold⟩ := Option.ite_none_left_eq_some.mp (Except.ok.inj hfold)
    obtain ⟨b, -, rfl⟩ := Option.map_eq_some_iff.mp hfold
    exact ⟨Form.formed_ofBool, rfl⟩
  all_goals simp at hnever

include hparts hfree

theorem simplerTruth_formed {mode : TruthMode} (h : (simplerTruth opt mode scope e).Gives (some e'))
    (he : e.form.Formed Written) : e'.form.Formed Written ∧ (Written e' ∨ e'.type = .boolean) := by
  have onlyArg {f : Builtin} {arg : Expr} (hform : e.form = .call f [arg]) : Written arg :=
    he.part hparts arg (hform ▸ List.mem_singleton_self arg)
  obtain ⟨hform, -⟩ | ⟨hform | ⟨-, hform⟩, -⟩ | ⟨-, arg, hform, hexists⟩ | ⟨root, es, hform, -⟩ :=
    simplerTruth_cases h
  · exact ⟨Form.formed_of_written (onlyArg hform), .inl (onlyArg hform)⟩
  · exact ⟨Form.formed_of_written (onlyArg hform), .inl (onlyArg hform)⟩
  · exact ⟨Form.formed_of_written (onlyArg hform), .inl (onlyArg hform)⟩
  · exact (optimizeCall_exists_formed hexists (onlyArg hform)).imp_right .inr
  · have hfilter := he.filterFree hfree
    obtain ⟨form, τ, l⟩ := e
    obtain rfl : form = .filter root es := hform
    cases hfilter

include hmoved

theorem optimizerWithin_keepsForm : (depth : Nat) → (optimizerWithin depth).KeepsForm scope Written
  | 0, _, _, _, _, h => absurd h Logged.gives_fail
  | depth + 1, _, _, _, he, h => by
    obtain rfl | ⟨new, place, hnew, h⟩ := simplify_cases h
    · exact ⟨he, id⟩
    · obtain ⟨hformed, htold⟩ := simplerTruth_formed hparts hfree hnew he
      obtain ⟨hformed', htold'⟩ := optimizerWithin_keepsForm depth hformed.at? h
      exact ⟨hformed', fun _ => htold' (htold.imp_left (hmoved new place))⟩

omit hparts hfree hmoved in
theorem operandPredicate_formed (hopt : opt.KeepsForm scope Written)
    (h : (operandPredicate opt scope l e).Gives e') (he : Written e) : e'.form.Formed Written := by
  unfold operandPredicate at h
  rw [Logged.gives_ite, Logged.gives_pure] at h
  obtain ⟨-, h⟩ | ⟨-, rfl⟩ := h
  swap
  · exact Form.formed_of_written he
  obtain ⟨args', hargs, h⟩ := optimizeCall_cases h
  obtain ⟨arg, rfl, hformed, htold⟩ : ∃ arg, args' = [arg] ∧ arg.form.Formed Written ∧
      (Written arg ∨ arg.type = .boolean) := by
    obtain rfl | ⟨-, _, arg, hone, rfl, hsimple⟩ := hargs
    · exact ⟨e, rfl, Form.formed_of_written he, .inl he⟩
    · obtain rfl := List.singleton_inj.mp hone
      exact ⟨arg, rfl, (hopt (Form.formed_of_written he) hsimple).imp_right fun h => h (.inl he)⟩
  obtain ⟨rfl, hplain⟩ | ⟨arg', new, place, hone, hfold, rfl⟩ := h
  · have harg : Written arg := by
      obtain hsame | ⟨arg', hone, hfold⟩ := hplain
      · exact List.singleton_inj.mp hsame ▸ he
      · obtain rfl := List.singleton_inj.mp hone
        refine htold.resolve_right fun htype => ?_
        have hfolds :
          (StaticType.boolean.isOne && StaticType.boolean.item == .atomic .boolean) = true := rfl
        simp only [foldCall, htype, hfolds, if_true] at hfold
        cases hfold
    exact .inr ⟨rfl, List.forall_mem_singleton.mpr harg⟩
  · obtain rfl := List.singleton_inj.mp hone
    simp only [foldCall] at hfold
    split at hfold
    · exact (Option.some.inj (Except.ok.inj hfold)) ▸ hformed
    · split at hfold
      · obtain ⟨b, -, hnew⟩ := map_eq_ok.mp hfold
        exact Option.some.inj hnew ▸ Form.formed_ofBool
      · cases hfold

end

/-! ### Rules for truths -/

section

variable {opt : Optimizer} {scope : Scope} {L : Knowledge} {Written : Expr → Prop}
    {l : Option Location}
  (hplace : call.IgnoresPlace) (hcall : call.Sound) (henv : env.Fits scope.visible L)

include hplace hcall henv

theorem optimizerWithin_holds (hparts : ∀ e, Written e → ∀ part ∈ e.form.parts, Written part)
    (hfree : ∀ e, Written e → e.filterFree = true) :
    (depth : Nat) → {e e' : Expr} → e.Annotated scope.visible L →
    e.form.Formed Written → ((optimizerWithin depth).simplify .predicate scope e).Gives e' →
    e.Holds call env b → e'.Holds call env b
  | 0, _, _, _, _, h, _ => absurd h Logged.gives_fail
  | depth + 1, e, e', he, hformed, h, hb => by
    obtain rfl | ⟨new, place, hnew, h⟩ := simplify_cases h
    · exact hb
    · have hann : (new.at? place).Annotated scope.visible L :=
        Expr.annotated_at?.mpr (simplerTruth_annotated (optimizerWithin_sound depth) hnew he)
      have hholds := simplerTruth_holds hcall henv he (hformed.filterFree hfree) hnew hb
      exact optimizerWithin_holds hparts hfree depth hann
        (simplerTruth_formed hparts hfree hnew hformed).1.at? h
        ((Expr.holds_at? hplace).mpr hholds)

theorem operandPredicate_holds (hopt : opt.Sound) (hkeeps : opt.KeepsTruth call env scope L)
    (he : e.Annotated scope.visible L) (hfree : e.filterFree = true)
    (h : (operandPredicate opt scope l e).Gives e') (hb : (e.truth call env).Gives b) :
    e'.Holds call env b := by
  unfold operandPredicate at h
  rw [Logged.gives_ite, Logged.gives_pure] at h
  obtain ⟨-, h⟩ | ⟨hnumber, rfl⟩ := h
  swap
  · exact (Expr.holds_iff_truth (he.soundAt hcall henv) (Bool.eq_false_iff.mpr hnumber)).mpr hb
  obtain ⟨args', hargs, h⟩ := optimizeCall_cases h
  obtain ⟨arg, rfl, harg, htruth⟩ : ∃ arg, args' = [arg] ∧ arg.Annotated scope.visible L ∧
      (arg.truth call env).Gives b := by
    obtain rfl | ⟨-, _, arg, hone, rfl, hsimple⟩ := hargs
    · exact ⟨e, rfl, he, hb⟩
    · obtain rfl := List.singleton_inj.mp hone
      exact ⟨arg, rfl, hopt.simplify he hsimple, (hkeeps he hfree hsimple).2 b hb⟩
  obtain ⟨rfl, -⟩ | ⟨arg', new, place, hone, hfold, rfl⟩ := h
  · exact Expr.holds_boolean.mpr htruth
  obtain rfl := List.singleton_inj.mp hone
  rw [Expr.holds_at? hplace]
  simp only [foldCall] at hfold
  split at hfold
  · next htype =>
    obtain rfl : arg = new := Option.some.inj (Except.ok.inj hfold)
    simp only [Bool.and_eq_true, beq_iff_eq] at htype
    have hnumber : arg.type.mayBeNumber = false := by
      rw [StaticType.mayBeNumber, htype.2]
      exact Bool.and_false _
    exact (Expr.holds_iff_truth (harg.soundAt hcall henv) hnumber).mpr htruth
  · split at hfold
    · obtain ⟨b', hconstant, hnew⟩ := map_eq_ok.mp hfold
      rw [← Option.some.inj hnew, Expr.constantTruth_eq hconstant htruth]
      exact Expr.holds_ofBool.mpr rfl
    · cases hfold

end

/-! ### Conjunctions -/

section

variable {most : Nat} {item : Item} {es : List Expr} (hc : call.IgnoresFocus)

include hc

theorem Env.Seats.truth {env' env'' : Env} (h : env.Seats most item env')
    (h' : env.Seats most item env'') (he : e.dependsOn .position = false) :
    e.truth call env'' = e.truth call env' := by
  obtain ⟨size, position, rfl, -⟩ := h
  obtain ⟨size', position', rfl, -⟩ := h'
  show e.truth call
    ((env.focusOn (some size) env.scoring position item).withFocus
    ⟨some item, position', some size'⟩) = _
  exact Expr.truth_withFocus hc e (.placed he position' (some size'))

theorem steady_of_allTrue {env' : Env} (henv' : env.Seats most item env') :
    {es : List Expr} → {b : Bool} →
    (∀ e ∈ es, e.dependsOn .position = false) → (allTrue call env' es).Gives b →
    Steady call env most (es.map fun e => Expr.call .boolean [e]) item b
  | [], b, _, h => (Logged.gives_pure.mp h).symm
  | e :: es, b, hes, h => by
    have hfirst {b : Bool} (hb : (e.truth call env').Gives b) (env'' : Env)
      (henv'' : env.Seats most item env'') :
        (Expr.call .boolean [e]).Holds call env'' b :=
      Expr.holds_boolean.mpr (henv'.truth hc henv'' (hes e List.mem_cons_self) ▸ hb)
    simp only [allTrue, Logged.gives_bind, Logged.gives_ite, Logged.gives_pure] at h
    obtain ⟨x, hx, ⟨rfl, h⟩ | ⟨hx', rfl⟩⟩ := h
    · exact .inl
        ⟨hfirst hx, steady_of_allTrue henv' (fun e he => hes e (List.mem_cons_of_mem _ he)) h⟩
    · obtain rfl := Bool.eq_false_iff.mpr hx'
      exact .inr ⟨hfirst hx, rfl⟩

/-- A conjunction that does not ask for the position comes to the truths of its operands, one after
the other. -/
theorem steady_of_conjunction {env' : Env} (henv' : env.Seats most item env')
    (hform : e.form = .conjunction es) (hposition : e.dependsOn .position = false)
    (h : e.Holds call env' b) :
    Steady call env most (es.map fun e => Expr.call .boolean [e]) item b := by
  obtain ⟨form, τ, l⟩ := e
  subst hform
  obtain ⟨c, hgives, hdecides⟩ := Expr.holds_iff.mp h
  simp only [Expr.iterate, Form.iterate, Logged.gives_locate, Logged.gives_map] at hgives
  obtain ⟨x, hx, rfl⟩ := hgives
  obtain rfl := decidesAt_ofBool.mp hdecides
  refine steady_of_allTrue hc henv' (fun d hd => Bool.eq_false_iff.mpr fun hasks => ?_) hx
  have hany : anyDependsOn .position es = true := anyDependsOn_iff.mpr ⟨d, hd, hasks⟩
  rw [Expr.dependsOn, Form.dependsOn, hany] at hposition
  cases hposition

end

end TreeQuery
