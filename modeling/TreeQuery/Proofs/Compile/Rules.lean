import TreeQuery.Proofs.Compile.Transfer
/-!
# What the rules make of demands

The rules for truth values, comparisons, paths, maps, type checks and calls, one after the other:
from operands whose nodes are as demanded they make expressions of that kind.
-/

namespace TreeQuery

section Rules

variable {α : Type} {before after : Demand α} {fits : α → Scope → Prop}
    (H : Transfer before after fits) {a : α}
  {opt : Optimizer} (hopt : opt.Transfers before after fits) {scope : Scope}

include H

/-! ### Calls of built-in functions -/

theorem foldExistence_satisfies {f : Builtin} {arg e : Expr} (h : foldExistence f arg = some e) :
    e.Satisfies after a := by
  obtain ⟨b, -, rfl⟩ : ∃ b, _ ∧ Expr.ofBool (b == (f == .exists)) = e := Option.map_eq_some_iff.mp h
  exact H.ofBool _

theorem foldCall_yields {f : Builtin} {arg : Expr} (harg : arg.Satisfies after a) :
    (Logged.lift (foldCall f arg) : Compile (Option Expr)).Yields fun new => ∀ e, new = some e →
    e.Satisfies after a := by
  have constant (g : Bool → Bool) :
    (Logged.lift (arg.constantTruth.map fun b => some (Expr.ofBool (g b))) :
      Compile (Option Expr)).Yields fun new => ∀ e, new = some e → e.Satisfies after a := by
    refine yields_lift (arg.constantTruth_ordinary.map _) ?_
    rintro new hnew e rfl
    cases htruth : arg.constantTruth with
    | error e => simp [htruth, Except.map] at hnew
    | ok b =>
      obtain rfl : Expr.ofBool (g b) = e := by simpa [htruth, Except.map] using hnew
      exact H.ofBool _
  have known {new : Option Expr} (h : ∀ e, new = some e → e.Satisfies after a) :
    (Logged.lift (.ok new) :
      Compile (Option Expr)).Yields fun new => ∀ e, new = some e → e.Satisfies after a :=
    yields_lift raises_ok fun _ h' => Except.ok.inj h' ▸ h
  have hform := harg.form
  cases f with
  | boolean =>
    simp only [foldCall]
    split
    · exact known fun e he => Option.some.inj he ▸ harg
    · split
      · exact constant id
      · exact known (by simp)
  | not =>
    simp only [foldCall]
    split
    · exact constant not
    · split
      · next args heq =>
        rw [heq] at hform
        exact known fun e he => Option.some.inj he ▸ H.call _ hform
      · next args heq =>
        rw [heq] at hform
        exact known fun e he => Option.some.inj he ▸ H.call _ hform
      · exact known (by simp)
  | «exists» | empty =>
    refine known fun e he => ?_
    split at he
    · cases he
    · exact foldExistence_satisfies H he
  | count =>
    refine known fun e he => ?_
    split at he
    · cases he
    · obtain ⟨n, -, rfl⟩ := Option.map_eq_some_iff.mp he
      exact H.literal _
  | position | last | trace => exact known (by simp)

include hopt

theorem optimizeCall_yields (hscope : fits a scope) {f : Builtin} {args : List Expr}
    {l : Option Location} (hargs : AllSatisfy after a args) :
    (optimizeCall opt scope f args l).Yields (Expr.Satisfies after a) := by
  unfold optimizeCall
  split
  · next arg =>
    have replaced {old new : Expr} (hnew : new.Satisfies after a) :
        (replace old (new.at? l)).Yields (Expr.Satisfies after a) :=
          replace_yields (Expr.satisfies_at?.mpr hnew)
    dsimp only
    split
    · exact .pure (H.ofForm trivial rfl hargs)
    · split
      · refine (hopt.simplify .truth hscope hargs.1).bind fun arg harg =>
          (foldCall_yields H harg).bind fun new hnew => ?_
        cases new with
        | some e => exact replaced (hnew e rfl)
        | none => exact .pure (H.ofForm trivial rfl ⟨harg, trivial⟩)
      · refine (foldCall_yields H hargs.1).bind fun new hnew => ?_
        cases new with
        | some e => exact replaced (hnew e rfl)
        | none => exact .pure (H.ofForm trivial rfl hargs)
  · exact .pure (H.ofForm trivial rfl hargs)

/-! ### Conjunctions, disjunctions and conditionals -/

omit H in
theorem flattenOperands_yields (hscope : fits a scope) (isAnd : Bool) (es : List Expr)
    (h : AllSatisfy after a es) :
    (flattenOperands opt scope isAnd es).Yields (AllSatisfy after a) := by
  induction es with
  | nil => exact .pure trivial
  | cons e es ih =>
    rw [flattenOperands]
    refine (hopt.simplify .truth hscope h.1).bind fun e he => ?_
    refine (ih h.2).bind fun rest hrest => ?_
    have hform := he.form
    split
    · next inner heq =>
      rw [heq] at hform
      split
      · exact .pure (allSatisfy_append.mpr ⟨hform, hrest⟩)
      · exact .pure ⟨he, hrest⟩
    · next inner heq =>
      rw [heq] at hform
      split
      · exact .pure ⟨he, hrest⟩
      · exact .pure (allSatisfy_append.mpr ⟨hform, hrest⟩)
    · exact .pure ⟨he, hrest⟩

omit H hopt in
theorem dropConstants_yields (isAnd : Bool) (es : List Expr) (h : AllSatisfy after a es) :
    (dropConstants isAnd es).Yields fun kept => ∀ es, kept = some es → AllSatisfy after a es := by
  induction es with
  | nil => exact .pure fun es h => Option.some.inj h ▸ trivial
  | cons e es ih =>
    rw [dropConstants]
    split
    · refine (ih h.2).bind fun rest hrest => .pure fun kept hkept => ?_
      obtain ⟨es', hes', rfl⟩ := Option.map_eq_some_iff.mp hkept
      exact ⟨h.1, hrest es' hes'⟩
    · refine (yields_lift (Q := fun _ => True) e.constantTruth_ordinary fun _ _ =>
        trivial).bind fun b _ => ?_
      split
      · exact (remark_yields _).bind fun _ _ => .pure fun es h => by cases h
      · exact (remark_yields _).bind fun _ _ => ih h.2

theorem optimizeLogic_yields (hscope : fits a scope) (isAnd : Bool) {es : List Expr}
    {l : Option Location} (h : AllSatisfy after a es) :
    (optimizeLogic opt scope isAnd es l).Yields (Expr.Satisfies after a) := by
  have plain (es : List Expr) (h : AllSatisfy after a es) :
      (⟨if isAnd then .conjunction es else .disjunction es, .boolean, l⟩ :
        Expr).Satisfies after a := by
    cases isAnd
    · exact H.ofForm trivial rfl h
    · exact H.ofForm trivial rfl h
  unfold optimizeLogic
  refine (flattenOperands_yields hopt hscope isAnd es h).bind fun es hes => ?_
  dsimp only
  split
  · exact .pure (plain es hes)
  · refine (dropConstants_yields isAnd es hes).bind fun kept hkept => ?_
    split
    · exact .pure (H.ofBoolAt _ _)
    · exact .pure (H.ofBoolAt _ _)
    · exact optimizeCall_yields H hopt hscope (hkept _ rfl)
    · exact .pure (plain _ (hkept _ rfl))

theorem optimizeConditional_yields (hscope : fits a scope) {condition yes no : Expr}
    {l : Option Location} (hcondition : condition.Satisfies after a) (hyes : yes.Satisfies after a)
    (hno : no.Satisfies after a) :
    (optimizeConditional opt scope condition yes no l).Yields (Expr.Satisfies after a) := by
  unfold optimizeConditional
  refine (hopt.simplify .truth hscope hcondition).gives.bind fun condition h => ?_
  obtain ⟨hcondition, hgives⟩ := h
  split
  · refine (yields_lift (Q := fun _ => True) condition.constantTruth_ordinary fun _ _ =>
      trivial).bind fun b _ => ?_
    refine (remark_yields _).bind fun _ _ => .pure ?_
    cases b with
    | true => exact hyes
    | false => exact hno
  · next hconstant =>
    refine .pure ⟨H.conditional hscope (fun hoptimize => ?_) yes no, hcondition, hyes, hno⟩
    exact ⟨hopt.settles hoptimize hgives, by simpa [hoptimize] using hconstant⟩

omit hopt

/-! ### Comparisons -/

theorem foldComparison_yields (style : CompareStyle) (op : CompareOp) (left right : Expr)
    (l r : List Atomic) (place : Option Location) :
    (foldComparison style op left right l r place).Yields (Expr.Satisfies after a) := by
  have boolean {x : Except Error Bool} (hx : Raises Error.Ordinary x) :
      (Expr.ofBool <$> Logged.lift x : Compile Expr).Yields (Expr.Satisfies after a) :=
    .map (yields_lift hx fun b _ => H.ofBool b)
  unfold foldComparison
  split
  · exact boolean (compareGeneral_ordinary op l r)
  · split
    · exact .pure H.empty
    · exact .pure H.empty
    · exact boolean (Atomic.compare_ordinary _ _ _)
    · exact failStatically_yields

theorem optimizeComparison_yields {style : CompareStyle} {op : CompareOp} {left right : Expr}
    {l : Option Location} (hleft : left.Satisfies after a) (hright : right.Satisfies after a) :
    (optimizeComparison scope style op left right l).Yields (Expr.Satisfies after a) := by
  have plain (op : CompareOp) {left right : Expr} (hleft : left.Satisfies after a)
    (hright : right.Satisfies after a) :
      (⟨.comparison style op left right, comparisonType style left right, l⟩ :
        Expr).Satisfies after a :=
    H.ofForm trivial rfl ⟨hleft, hright⟩
  unfold optimizeComparison
  dsimp only
  split
  · exact .pure (plain op hleft hright)
  · split
    · exact (foldComparison_yields H ..).bind fun e he => replace_yields (Expr.satisfies_at?.mpr he)
    · have finish (op : CompareOp) (left right : Expr) (hleft : left.Satisfies after a)
        (hright : right.Satisfies after a) :
          (if style == .general && (left.type.isZero || right.type.isZero) &&
            !left.dependsOn .effects
                && !right.dependsOn .effects then do
              remark ((⟨.comparison style op left right, comparisonType style left right, l⟩ : Expr).render
                ++ " compares an empty sequence")
              return (Expr.ofBool false).at? l
            else return (⟨.comparison style op left right, comparisonType style left right, l⟩ : Expr) :
              Compile Expr).Yields (Expr.Satisfies after a) := by
        split
        · exact (remark_yields _).bind fun _ _ => .pure (H.ofBoolAt _ _)
        · exact .pure (plain op hleft hright)
      by_cases hswap : (left.isConstant && !right.isConstant) = true
      · simp only [hswap, if_true]
        exact (remark_yields _).bind fun _ _ => finish _ _ _ hright hleft
      · simp only [hswap]
        exact finish _ _ _ hleft hright

theorem optimizePositionTest_yields {e : Expr} (h : e.Satisfies after a) :
    (optimizePositionTest e).Yields (Expr.Satisfies after a) := by
  unfold optimizePositionTest
  split
  · split
    · exact replace_yields (H.ofPositionTest _)
    · split
      · exact replace_yields (H.call .last trivial)
      · exact .pure h
  · exact .pure h

/-! ### Paths and maps -/

omit H in
theorem allSatisfy_flattenSteps (scope : Scope) (es : List Expr) (h : AllSatisfy after a es) :
    AllSatisfy after a (flattenSteps scope es) := by
  induction es with
  | nil => trivial
  | cons e es ih =>
    have hform := h.1.form
    rw [flattenSteps]
    split
    · next inner heq =>
      rw [heq] at hform
      refine allSatisfy_append.mpr ⟨?_, ih h.2⟩
      split
      · exact hform
      · exact ⟨h.1, trivial⟩
    · exact ⟨h.1, ih h.2⟩

theorem replaceIfEmpty_yields {e : Expr} {hasEmpty : Bool} (h : e.Satisfies after a) :
    (replaceIfEmpty scope e hasEmpty).Yields (Expr.Satisfies after a) := by
  unfold replaceIfEmpty
  split
  · exact replace_yields H.empty
  · exact .pure h

theorem optimizePath_some_yields (hscope : fits a scope) {root : Expr} {steps : List Expr}
    {l : Option Location} (hroot : root.Satisfies after a) (hsteps : AllSatisfy after a steps) :
    (optimizePath scope (some root) steps l).Yields (Expr.Satisfies after a) := by
  have hflat := allSatisfy_flattenSteps scope steps hsteps
  unfold optimizePath
  cases heq : flattenSteps scope steps with
  | nil => exact .pure (Expr.satisfies_at?.mpr hroot)
  | cons first rest =>
    have hpath := H.path hscope hsteps (by simp [heq]) root
    rw [heq] at hpath hflat
    exact replaceIfEmpty_yields H ⟨hpath, hroot, hflat⟩

theorem optimizePath_none_yields (hscope : fits a scope) {source steps : List Expr}
    {l : Option Location} {τ : StaticType} (hsource : before.node a (.relativePath source) τ)
    (hlength : source.length = steps.length) (hsteps : AllSatisfy after a steps) :
    (optimizePath scope none steps l).Yields (Expr.Satisfies after a) := by
  have hflat := allSatisfy_flattenSteps scope steps hsteps
  unfold optimizePath
  cases heq : flattenSteps scope steps with
  | nil => exact .pure ⟨H.stepless hscope hsource hlength hsteps heq, trivial⟩
  | cons first rest =>
    have hpath := H.relativePath hscope hsteps (by simp [heq])
    rw [heq] at hpath hflat
    cases rest with
    | nil =>
      dsimp only
      split
      · exact .pure hflat.1
      · exact replaceIfEmpty_yields H ⟨hpath, hflat⟩
    | cons second rest => exact replaceIfEmpty_yields H ⟨hpath, hflat⟩

omit H in
theorem dropContextItems_yields (es : List Expr) (h : AllSatisfy after a es) :
    (dropContextItems es).Yields (AllSatisfy after a) := by
  induction es with
  | nil => exact .pure trivial
  | cons first rest ih =>
    cases rest with
    | nil => exact .pure h
    | cons second rest =>
      rw [dropContextItems]
      split
      · exact (remark_yields _).bind fun _ _ => ih h.2
      · exact .pure h

theorem optimizeMap_yields {operands : List Expr} {l : Option Location}
    (h : AllSatisfy after a operands) :
    (optimizeMap scope operands l).Yields (Expr.Satisfies after a) := by
  unfold optimizeMap
  dsimp only
  split
  · refine (dropContextItems_yields operands h).bind fun operands h => ?_
    split
    · exact .pure (Expr.satisfies_at?.mpr h.1)
    · exact replaceIfEmpty_yields H (H.ofForm trivial rfl h)
  · refine (Logged.Ensures.pure (Q := AllSatisfy after a) h).bind fun operands h => ?_
    split
    · exact .pure (H.ofForm trivial rfl h)
    · exact replaceIfEmpty_yields H (H.ofForm trivial rfl h)

/-! ### Type checks -/

theorem runtimeCheck_satisfies {e : Expr} (h : e.Satisfies after a) (target : SeqType)
    (promote : Bool) (l : Option Location) : (runtimeCheck e target promote l).Satisfies after a :=
    H.ofForm trivial rfl h

theorem checkLiteral_yields {e : Expr} {values : List Atomic} {target : SeqType} {promote : Bool}
    {l : Option Location} :
    (checkLiteral e values target promote l).Yields (Expr.Satisfies after a) := by
  unfold checkLiteral
  split
  · exact replace_yields (Expr.satisfies_at?.mpr (H.literal _))
  · exact .fail (.inl trivial)

omit H in
theorem FunctionItem.Satisfies.coerce {f g : FunctionItem} {s : Signature} (hg : f.coerce s = .ok g)
    (h : f.Satisfies after a) : g.Satisfies after a := by
  unfold FunctionItem.coerce at hg
  split at hg
  · cases hg
  · split at hg
    · exact Except.ok.inj hg ▸ h
    · exact Except.ok.inj hg ▸ h

omit H in
theorem FunctionItem.innermost_coerce {f g : FunctionItem} {s : Signature}
    (h : f.coerce s = .ok g) : g.innermost = f.innermost := by
  unfold FunctionItem.coerce at h
  split at h
  · cases h
  · split at h
    · exact Except.ok.inj h ▸ rfl
    · exact Except.ok.inj h ▸ rfl

theorem checkFunction_yields {e : Expr} {f : FunctionItem} {τ : StaticType} {target : SeqType}
    {promote : Bool} {l : Option Location} (hnode : after.node a (.function f) τ)
    (hf : f.Satisfies after a) :
    (checkFunction e f target promote l).Yields (Expr.Satisfies after a) := by
  unfold checkFunction
  split
  · split
    · exact failStatically_yields
    · have coerced (s : Signature) : (coerceFunction f s).Yields fun g =>
          (Expr.of (.function g)).Satisfies after a :=
        (yields_lift (f.coerce_ordinary s) fun g hg =>
            ⟨H.recast hnode hg, hf.coerce hg⟩).bind fun g hg =>
          (remark_yields _).bind fun _ _ => .pure hg
      exact (coerced _).bind fun g hg => .pure (Expr.satisfies_at?.mpr hg)
  · exact failStatically_yields

include hopt in
theorem Expr.checkAs_yields (hscope : fits a scope) (target : SeqType) (promote : Bool) :
    (e : Expr) → (l : Option Location) → e.Satisfies after a →
      (e.checkAs opt scope target promote l).Yields (Expr.Satisfies after a)
  | ⟨form, type, place⟩, l, h => by
    have plain := runtimeCheck_satisfies H h target promote l
    unfold Expr.checkAs
    dsimp only
    split
    · exact .pure plain
    · split
      · exact (remark_yields _).bind fun _ _ => .pure h
      · split
        · exact checkFunction_yields H h.1 h.2
        · exact checkLiteral_yields H
        · next condition yes no =>
          split
          · exact failStatically_yields
          · refine (Expr.checkAs_yields hscope target promote yes _ h.2.2.1).bind fun yes hyes => ?_
            refine (Expr.checkAs_yields hscope target promote no _ h.2.2.2).bind fun no hno => ?_
            exact optimizeConditional_yields H hopt hscope h.2.1 hyes hno
        · split
          · exact failStatically_yields
          · exact .pure plain

/-! ### Calls of function items -/

omit H in
theorem dropRedundantChecks_yields :
    (args : List Expr) → (vs : List Variable) → AllSatisfy after a args →
    (dropRedundantChecks args vs).Yields (AllSatisfy after a)
  | [], _, _ => by
    rw [dropRedundantChecks.eq_def]
    exact .pure trivial
  | _ :: _, [], _ => by
    rw [dropRedundantChecks.eq_def]
    exact .pure trivial
  | arg :: args, v :: vs, h => by
    have finish (arg : Expr) (harg : arg.Satisfies after a) : (do
        let rest ← dropRedundantChecks args vs
        return arg :: rest : Compile (List Expr)).Yields (AllSatisfy after a) :=
      (dropRedundantChecks_yields args vs h.2).bind fun rest hrest => .pure ⟨harg, hrest⟩
    have hform := h.1.form
    rw [dropRedundantChecks]
    split
    · next operand target promote heq =>
      rw [heq] at hform
      split
      · exact (remark_yields _).bind fun _ _ => finish operand hform
      · exact finish arg h.1
    · exact finish arg h.1

theorem optimizeKnownApply_yields {signature : Option Signature} {f : Expr} {args : List Expr}
    {l : Option Location} (htype : applyType signature = (Form.apply f args).computedType)
    (hf : f.Satisfies after a) (hargs : AllSatisfy after a args) :
    (optimizeKnownApply scope signature f args l).Yields (Expr.Satisfies after a) := by
  have finish {x : Compile (List Expr)} (hx : x.Yields (AllSatisfy after a)) :
      (x >>= fun args => return (⟨.apply f args, applyType signature, l⟩ : Expr)).Yields
        (Expr.Satisfies after a) :=
    hx.bind fun args hargs => .pure (H.ofForm trivial htype ⟨hf, hargs⟩)
  unfold optimizeKnownApply
  cases signature <;> dsimp only
  all_goals
    split
    · split
      · exact finish (dropRedundantChecks_yields args _ hargs)
      · exact finish (.pure hargs)
    · exact finish (.pure hargs)

theorem optimizeApply_yields {f : Expr} {args : List Expr} {l : Option Location}
    (hf : f.Satisfies after a) (hargs : AllSatisfy after a args) :
    (optimizeApply scope f args l).Yields (Expr.Satisfies after a) := by
  unfold optimizeApply
  split
  · next heq =>
    split
    · exact failStatically_yields
    · exact optimizeKnownApply_yields H (by rw [Form.computedType, heq]) hf hargs
  · next heq => exact optimizeKnownApply_yields H (by rw [Form.computedType, heq]) hf hargs
  · next heq => exact optimizeKnownApply_yields H (by rw [Form.computedType, heq]) hf hargs
  · exact failStatically_yields

end Rules

end TreeQuery
