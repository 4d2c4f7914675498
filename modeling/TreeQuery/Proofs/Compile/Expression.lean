import TreeQuery.Query
import TreeQuery.Proofs.Compile.Predicates
/-!
# What compilation makes of demands, in all

The rules put together: compiling an expression with nodes as demanded before gives one with nodes
as demanded after (`Expr.compile_yields`), for the optimizers of all depths
(`optimizerWithin_transfers`), and so for queries (`Query.compile_satisfies`). Simplification of a
truth value ends with an expression to which no rule applies; whether one does is seen from the
expression alone, so it is settled for every scope (`optimizerWithin_settles`).
-/

namespace TreeQuery

/-! ### Settled truth values -/

section Settled

variable {opt : Optimizer} {scope : Scope}

theorem extendRoot_none {root : Expr} {es : List Expr} {e : Expr}
    (h : (extendRoot opt scope root es e).Gives none) (opt' : Optimizer) (scope' : Scope) :
    extendRoot opt' scope' root es e = pure none := by
  unfold extendRoot at h ⊢
  split at h
  · simp at h
  · next hitem =>
    rw [if_neg hitem]
    split at h
    · simp at h
    · rfl

theorem liftPredicate_none {root : Expr} {es : List Expr} {e : Expr}
    (h : (liftPredicate opt scope root es e).Gives none) (opt' : Optimizer) (scope' : Scope) :
    liftPredicate opt' scope' root es e = pure none := by
  unfold liftPredicate at h ⊢
  rw [Logged.gives_bind] at h
  obtain ⟨p, hp, h⟩ := h
  cases p with
  | some path => simp at h
  | none =>
    rw [extendRoot_none hp opt' scope']
    dsimp only at h
    split at h
    · simp at h
    · next hone => simp [hone]

theorem simplifyFilter_none {root : Expr} {es : List Expr}
    (h : (simplifyFilter opt scope root es).Gives none) (opt' : Optimizer) (scope' : Scope) :
    simplifyFilter opt' scope' root es = pure none := by
  unfold simplifyFilter at h ⊢
  split at h
  · rfl
  · next last hlast =>
    dsimp only at h ⊢
    split at h
    · next hpositional => rw [if_pos hpositional]
    · next hpositional =>
      rw [if_neg hpositional]
      split at h
      · next op left right heq =>
        split at h
        · next hfocused =>
          rw [if_pos hfocused]
          exact liftPredicate_none h opt' scope'
        · next hfocused =>
          rw [if_neg hfocused]
          obtain ⟨lifted, hlifted, h⟩ := Logged.gives_bind.mp h
          cases lifted with
          | some path => simp at h
          | none =>
            rw [extendRoot_none hlifted opt' scope', Logged.pure_bind]
            exact liftPredicate_none h opt' scope'
      · next input query heq =>
        split at h
        · next hfocused =>
          rw [if_pos hfocused]
          exact liftPredicate_none h opt' scope'
        · next hfocused =>
          rw [if_neg hfocused]
          obtain ⟨lifted, hlifted, h⟩ := Logged.gives_bind.mp h
          cases lifted with
          | some path => simp at h
          | none =>
            rw [extendRoot_none hlifted opt' scope', Logged.pure_bind]
            exact liftPredicate_none h opt' scope'
      · exact liftPredicate_none h opt' scope'

theorem Expr.settled_of_none {e : Expr} (h : (simplerTruth opt .truth scope e).Gives none) :
    e.Settled := by
  intro opt' scope'
  unfold simplerTruth at h ⊢
  split at h
  · rw [Logged.gives_pure.mp h]
  · rw [Logged.gives_pure.mp h]
  · split at h
    · next hmode => exact absurd rfl hmode
    · split at h <;> simp at h
  · exact simplifyFilter_none h opt' scope'
  · rfl

theorem Expr.Settled.simplify {e : Expr} (h : e.Settled) (d : Nat) (scope : Scope) :
    (optimizerWithin (d + 1)).simplify .truth scope e = pure e := by
  show TreeQuery.simplify (optimizerWithin d) .truth scope e = pure e
  unfold TreeQuery.simplify
  split
  · rfl
  · rw [h]
    rfl

theorem optimizerWithin_settles {scope : Scope} (hoptimize : scope.optimize = true) {e' : Expr} :
    (d : Nat) → {e : Expr} → ((optimizerWithin d).simplify .truth scope e).Gives e' → e'.Settled
  | 0, _, h => absurd h Logged.gives_fail
  | d + 1, e, h => by
    have h : (TreeQuery.simplify (optimizerWithin d) .truth scope e).Gives e' := h
    simp only [TreeQuery.simplify, hoptimize, Bool.not_true, if_neg Bool.false_ne_true,
      Logged.gives_bind] at h
    obtain ⟨p, hp, h⟩ := h
    cases p with
    | none => exact Logged.gives_pure.mp h ▸ Expr.settled_of_none hp
    | some new =>
      obtain ⟨e₁, -, h⟩ := Logged.gives_bind.mp h
      exact optimizerWithin_settles hoptimize d h

end Settled

section Compile

variable {α : Type} {before after : Demand α} {fits : α → Scope → Prop}
    (H : Transfer before after fits)
  {opt : Optimizer} (hopt : opt.Transfers before after fits)

include H hopt

/-! ### Simplification -/

theorem simplerTruth_yields {a : α} {scope : Scope} {mode : TruthMode} (hscope : fits a scope)
    {e : Expr} (h : e.Satisfies after a) :
    (simplerTruth opt mode scope e).Yields fun p => ∀ e, p = some e → e.Satisfies after a := by
  have hform := h.form
  unfold simplerTruth
  split
  · next arg heq =>
    rw [heq] at hform
    refine .pure fun e he => ?_
    split at he
    · cases he
    · exact Option.some.inj he ▸ hform.1
  · next arg heq =>
    rw [heq] at hform
    refine .pure fun e he => ?_
    split at he
    · exact Option.some.inj he ▸ hform.1
    · cases he
  · next arg heq =>
    rw [heq] at hform
    split
    · exact .pure nofun
    · split
      · exact .pure fun e he => Option.some.inj he ▸ hform.1
      · exact .map ((optimizeCall_yields H hopt hscope hform).mono fun e he _ hp =>
          Option.some.inj hp ▸ he)
  · next root es heq =>
    rw [heq] at hform
    exact simplifyFilter_yields H hopt hscope hform.1 hform.2
  · exact .pure nofun

theorem simplify_yields {a : α} {scope : Scope} (mode : TruthMode) (hscope : fits a scope)
    {e : Expr} (h : e.Satisfies after a) :
    (simplify opt mode scope e).Yields (Expr.Satisfies after a) := by
  unfold simplify
  split
  · exact .pure h
  · refine (simplerTruth_yields H hopt hscope h).bind fun p hp => ?_
    cases p with
    | none => exact .pure h
    | some new => exact (replace_yields (hp new rfl)).bind fun e he => hopt.simplify mode hscope he

/-! ### Compilation -/

omit H hopt in
theorem requireNode_yields (scope : Scope) (l : Option Location) :
    (requireNode scope l).Yields fun _ => True := by
  unfold requireNode
  split
  · exact failWith_yields Error.static_contextAbsent l
  · split
    · exact .pure trivial
    · exact failStatically_yields

omit H hopt in
theorem requireFocus_yields (scope : Scope) (f : Builtin) (l : Option Location) :
    (requireFocus scope f l).Yields fun _ => True := by
  unfold requireFocus
  split
  · exact failWith_yields Error.static_contextAbsent l
  · exact .pure trivial

omit H hopt

mutual

theorem Expr.compile_yields (H : Transfer before after fits)
    (hopt : opt.Transfers before after fits) :
    (e : Expr) → {a : α} → {scope : Scope} → fits a scope → e.Satisfies before a →
    (e.compile opt scope).Yields (Expr.Satisfies after a)
  | ⟨form, τ, l⟩, a, scope, hscope, h => by
    rw [Expr.compile]
    exact Form.compile_yields H hopt form τ l hscope h.1 h.2

theorem Form.compile_yields (H : Transfer before after fits)
    (hopt : opt.Transfers before after fits) :
    (form : Form) → (τ : StaticType) → (l : Option Location) → {a : α} → {scope : Scope} →
    fits a scope → before.node a form τ → form.Satisfies before a →
      (form.compile opt scope τ l).Yields (Expr.Satisfies after a)
  | .literal values, τ, l, a, scope, hscope, hnode, h => .pure ⟨H.leaf trivial hnode, trivial⟩
  | .position w, τ, l, a, scope, hscope, hnode, h => .pure ⟨H.leaf trivial hnode, trivial⟩
  | .failure e, τ, l, a, scope, hscope, hnode, h => .pure ⟨H.leaf trivial hnode, trivial⟩
  | .contextItem, τ, l, a, scope, hscope, hnode, h => by
    rw [Form.compile]
    split
    · exact .pure ⟨H.contextItem a _, trivial⟩
    · exact failWith_yields Error.static_contextAbsent l
  | .function f, τ, l, a, scope, hscope, hnode, h => by
    rw [Form.compile]
    exact (FunctionItem.compile_yields H hopt f hscope hnode h).gives.bind fun g hg =>
      .pure (Expr.satisfies_at?.mpr ⟨hopt.function hscope hnode hg.2, hg.1⟩)
  | .conjunction es, τ, l, a, scope, hscope, hnode, h => by
    rw [Form.compile]
    exact (compileAll_yields H hopt es hscope h).bind fun es hes =>
      optimizeLogic_yields H hopt hscope true hes
  | .disjunction es, τ, l, a, scope, hscope, hnode, h => by
    rw [Form.compile]
    exact (compileAll_yields H hopt es hscope h).bind fun es hes =>
      optimizeLogic_yields H hopt hscope false hes
  | .comparison style op left right, τ, l, a, scope, hscope, hnode, h => by
    rw [Form.compile]
    exact (Expr.compile_yields H hopt left hscope h.1).bind fun left hleft =>
      (Expr.compile_yields H hopt right hscope h.2).bind fun right hright =>
        optimizeComparison_yields H hleft hright
  | .call f args, τ, l, a, scope, hscope, hnode, h => by
    rw [Form.compile]
    exact (requireFocus_yields scope f l).bind fun _ _ =>
        (compileAll_yields H hopt args hscope h).bind fun args hargs =>
      optimizeCall_yields H hopt hscope hargs
  | .step axis test es, τ, l, a, scope, hscope, hnode, h => by
    rw [Form.compile]
    exact (requireNode_yields scope l).bind fun _ _ =>
      (compilePredicates_yields H hopt es (H.withFocus hscope _) h).bind fun es hes =>
        optimizeStep_yields H hopt hscope hes
  | .path root steps, τ, l, a, scope, hscope, hnode, h => by
    rw [Form.compile]
    exact (Expr.compile_yields H hopt root hscope h.1).bind fun root hroot =>
      (compileChain_yields H hopt steps _ hscope h.2).bind fun steps hsteps =>
        optimizePath_some_yields H hscope hroot hsteps.1
  | .relativePath steps, τ, l, a, scope, hscope, hnode, h => by
    rw [Form.compile]
    exact (compileChain_yields H hopt steps _ hscope h).bind fun compiled hsteps =>
      optimizePath_none_yields H hscope hnode hsteps.2.symm hsteps.1
  | .map operands, τ, l, a, scope, hscope, hnode, h => by
    rw [Form.compile]
    exact (compileChain_yields H hopt operands _ hscope h).bind fun operands hoperands =>
      optimizeMap_yields H hoperands.1
  | .filter root es, τ, l, a, scope, hscope, hnode, h => by
    rw [Form.compile]
    exact (Expr.compile_yields H hopt root hscope h.1).bind fun root hroot =>
      (compilePredicates_yields H hopt es (H.withFocus hscope _) h.2).bind fun es hes =>
        optimizeFilter_yields H hopt hscope hroot hes
  | .containsText input query, τ, l, a, scope, hscope, hnode, h => by
    rw [Form.compile]
    exact (Expr.compile_yields H hopt input hscope h.1).bind fun input hinput =>
      (Expr.compile_yields H hopt query hscope h.2).bind fun query hquery =>
        optimizeSearch_yields H hinput hquery
  | .conditional condition yes no, τ, l, a, scope, hscope, hnode, h => by
    rw [Form.compile]
    exact (Expr.compile_yields H hopt condition hscope h.1).bind fun condition hcondition =>
      (Expr.compile_yields H hopt yes hscope h.2.1).bind fun yes hyes =>
          (Expr.compile_yields H hopt no hscope h.2.2).bind fun no hno =>
        optimizeConditional_yields H hopt hscope hcondition hyes hno
  | .reference v, τ, l, a, scope, hscope, hnode, h => by
    rw [Form.compile]
    split
    · next found hfound =>
        exact .pure (Expr.satisfies_at?.mpr ⟨H.reference hscope hnode hfound, trivial⟩)
    · exact failWith_yields (c := .undeclared v.name) (.inl trivial) l
  | .apply f args, τ, l, a, scope, hscope, hnode, h => by
    rw [Form.compile]
    exact (Expr.compile_yields H hopt f hscope h.1).bind fun f hf =>
        (compileAll_yields H hopt args hscope h.2).bind fun args hargs =>
      optimizeApply_yields H hf hargs
  | .check operand target promote, τ, l, a, scope, hscope, hnode, h => by
    rw [Form.compile]
    exact (Expr.compile_yields H hopt operand hscope h).bind fun operand hoperand =>
      Expr.checkAs_yields H hopt hscope target promote operand l hoperand

theorem FunctionItem.compile_yields (H : Transfer before after fits)
    (hopt : opt.Transfers before after fits) :
    (f : FunctionItem) → {a : α} → {scope : Scope} → {τ : StaticType} → fits a scope →
    before.node a (.function f) τ → f.Satisfies before a →
    (f.compile opt scope).Yields (FunctionItem.Satisfies after a)
  | .inline name signature params body, a, scope, τ, hscope, hnode, h => by
    have hinner := H.withVariables (H.withFocus hscope none) params
    rw [FunctionItem.Satisfies, H.enter, H.inline] at h
    rw [FunctionItem.compile]
    refine (Expr.compile_yields H hopt body hinner h.2).bind fun body hbody => ?_
    refine (Expr.checkAs_yields H hopt hinner signature.result true body _ hbody).bind
      fun body hbody => .pure ?_
    rw [FunctionItem.Satisfies]
    exact ⟨h.1, hbody⟩
  | .coerced name signature inner, a, scope, τ, hscope, hnode, h =>
    have hinner : inner.Satisfies after a := H.coerced hnode
    .pure hinner

theorem compileAll_yields (H : Transfer before after fits)
    (hopt : opt.Transfers before after fits) :
    (es : List Expr) → {a : α} → {scope : Scope} → fits a scope → AllSatisfy before a es →
    (compileAll opt scope es).Yields (AllSatisfy after a)
  | [], _, _, _, _ => .pure trivial
  | e :: es, a, scope, hscope, h => by
    rw [compileAll]
    exact (Expr.compile_yields H hopt e hscope h.1).bind fun e he =>
        (compileAll_yields H hopt es hscope h.2).bind fun es hes =>
      .pure ⟨he, hes⟩

theorem compileChain_yields (H : Transfer before after fits)
    (hopt : opt.Transfers before after fits) :
    (es : List Expr) → (t : Option ItemType) → {a : α} → {scope : Scope} → fits a scope →
    AllSatisfy before a es →
      (compileChain opt scope t es).Yields fun compiled => AllSatisfy after a compiled ∧
      compiled.length = es.length
  | [], _, _, _, _, _ => .pure ⟨trivial, rfl⟩
  | e :: es, t, a, scope, hscope, h => by
    have hfocus : fits a (match t with
        | some t => scope.withFocus (some t)
        | none => scope) := by
      cases t with
      | some t => exact H.withFocus hscope _
      | none => exact hscope
    rw [compileChain.eq_def]
    exact (Expr.compile_yields H hopt e hfocus h.1).bind fun e he =>
        (compileChain_yields H hopt es _ hscope h.2).bind fun es hes =>
      .pure ⟨⟨he, hes.1⟩, congrArg Nat.succ hes.2⟩

theorem compilePredicates_yields (H : Transfer before after fits)
    (hopt : opt.Transfers before after fits) :
    (es : List Expr) → {a : α} → {scope : Scope} → fits a scope → AllSatisfy before a es →
    (compilePredicates opt scope es).Yields (AllSatisfy after a)
  | [], _, _, _, _ => .pure trivial
  | e :: es, a, scope, hscope, h => by
    rw [compilePredicates]
    exact (deferring_yields H (Expr.compile_yields H hopt e hscope h.1)).bind fun e he =>
      (compilePredicates_yields H hopt es hscope h.2).bind fun es hes => .pure ⟨he, hes⟩

end

include H

theorem optimizerWithin_transfers : (d : Nat) → (optimizerWithin d).Transfers before after fits
  | 0 => ⟨fun _ _ => .fail trivial, fun _ _ _ => .fail trivial,
    fun hoptimize h => optimizerWithin_settles hoptimize 0 h, H.compiled 0⟩
  | d + 1 =>
    have ih := optimizerWithin_transfers d
    ⟨fun hscope h => Expr.compile_yields H ih _ hscope h,
      fun mode hscope h => simplify_yields H ih mode hscope h,
      fun hoptimize h => optimizerWithin_settles hoptimize (d + 1) h, H.compiled (d + 1)⟩

/-! ### Queries -/

omit H in
theorem Query.compile_gives {s : StaticContext} {e : Expr} {q : Query} (h : compile s e = .ok q) :
    (e.compile s.optimizer s.scope).Gives q.expr := by
  obtain ⟨e', he', rfl⟩ := map_eq_ok.mp h
  exact he'

/-- A query compiled of an expression with nodes as demanded before has nodes as demanded after. -/
theorem Query.compile_satisfies {a : α} {s : StaticContext} {e : Expr} {q : Query}
    (hscope : fits a s.scope) (he : e.Satisfies before a) (hq : compile s e = .ok q) :
    q.expr.Satisfies after a :=
  (Expr.compile_yields H (optimizerWithin_transfers H s.optimizeDepth) e hscope he).answer q.expr
    (compile_gives hq)

end Compile

end TreeQuery
