import TreeQuery.Query
import TreeQuery.Proofs.Termination.Compilation
/-!
# Compilation ends

The rules come back to compilation and simplification down to a depth. `Ends n x` says of a
computation at every depth that from the depth `n` on it is the same and reaches no limit. A rule
comes back to compilation and simplification for lighter expressions alone, so the weight of an
expression is depth enough (`Expr.compile_ends`).
-/

namespace TreeQuery

/-! ### Computations that end -/

/-- From the depth `n` on the computation is the same, and reaches no limit. -/
structure Ends {α : Type} (n : Nat) (x : Nat → Compile α) : Prop where
  finite : ¬(x n).Fails .aborted
  stable : ∀ d, n ≤ d → x d = x n

namespace Ends

variable {α β : Type} {n : Nat}

theorem const {y : Compile α} (h : ¬y.Fails .aborted) : Ends n fun _ => y := ⟨h, fun _ _ => rfl⟩

theorem pure (a : α) : Ends n fun _ => (Pure.pure a : Compile α) := const Logged.fails_pure

theorem bind {x : Nat → Compile α} {f : Nat → α → Compile β} (hx : Ends n x)
    (hf : ∀ a, (x n).Gives a → Ends n fun d => f d a) : Ends n fun d => x d >>= f d := by
  refine ⟨?_, fun d hd => ?_⟩
  · rw [Logged.fails_bind]
    rintro (h | ⟨a, ha, h⟩)
    · exact hx.finite h
    · exact (hf a ha).finite h
  · rw [hx.stable d hd]
    exact Logged.bind_eq_of_gives fun a ha => (hf a ha).stable d hd

theorem map {x : Nat → Compile α} (hx : Ends n x) (f : α → β) : Ends n fun d => f <$> x d :=
  ⟨fun h => hx.finite (Logged.fails_map.mp h), fun d hd => by rw [hx.stable d hd]⟩

theorem ite {p : Prop} [Decidable p] {x y : Nat → Compile α} (hx : p → Ends n x)
    (hy : ¬p → Ends n y) : Ends n fun d => if p then x d else y d := by
  by_cases h : p
  · simpa only [if_pos h] using hx h
  · simpa only [if_neg h] using hy h

theorem succ {x y : Nat → Compile α} (hx : Ends n x) (h : ∀ d, y (d + 1) = x d) :
    Ends (n + 1) y := by
  refine ⟨h n ▸ hx.finite, fun d hd => ?_⟩
  obtain ⟨d, rfl⟩ : ∃ d', d = d' + 1 := ⟨d - 1, by omega⟩
  rw [h, h, hx.stable d (by omega)]

end Ends

/-! ### Rules that come back to nothing -/

section

variable {scope : Scope} {e : Expr} {l : Option Location}

theorem lift_not_aborted {α : Type} {x : Except Error α} :
    ¬(Logged.lift x : Compile α).Fails .aborted := by
  simp

theorem failStatically_not_aborted {α : Type} {found : String} {expected : SeqType} :
    ¬(failStatically found expected l : Compile α).Fails .aborted := by
  simp [failStatically]

theorem failWith_not_aborted {α : Type} {c : Cause} :
    ¬((Logged.failWith c : Compile α).locate l).Fails .aborted :=
  fun h => by cases h

theorem requireNode_not_aborted : ¬(requireNode scope l).Fails .aborted := by
  unfold requireNode
  split
  · exact failWith_not_aborted
  · simp [Logged.fails_ite, failStatically_not_aborted]

theorem requireFocus_not_aborted {f : Builtin} : ¬(requireFocus scope f l).Fails .aborted := by
  simp [requireFocus, Logged.fails_ite, failWith_not_aborted]

theorem foldComparison_not_aborted {style : CompareStyle} {op : CompareOp} {left right : Expr}
    {vs ws : List Atomic} : ¬(foldComparison style op left right vs ws l).Fails .aborted := by
  unfold foldComparison
  split
  · simp
  · split
    · simp
    · simp
    · simp
    · exact failStatically_not_aborted

theorem optimizeComparison_not_aborted {style : CompareStyle} {op : CompareOp} {left right : Expr} :
    ¬(optimizeComparison scope style op left right l).Fails .aborted := by
  simp only [optimizeComparison]
  rw [Logged.fails_ite]
  rintro (⟨-, h⟩ | ⟨-, h⟩)
  · simp at h
  split at h
  · simp only [Logged.fails_bind, fails_replace, and_false, exists_false, or_false] at h
    exact foldComparison_not_aborted h
  · cases hswap : left.isConstant && !right.isConstant <;> simp [hswap, Logged.fails_ite] at h

theorem dropConstants_not_aborted {isAnd : Bool} {es : List Expr} :
    ¬(dropConstants isAnd es).Fails .aborted := by
  induction es with
  | nil => simp [dropConstants]
  | cons e es ih => simp [dropConstants, Logged.fails_ite, ih]

theorem checkLiteral_not_aborted {values : List Atomic} {target : SeqType} {promote : Bool} :
    ¬(checkLiteral e values target promote l).Fails .aborted := by
  unfold checkLiteral
  split <;> simp

theorem checkFunction_not_aborted {f : FunctionItem} {target : SeqType} {promote : Bool} :
    ¬(checkFunction e f target promote l).Fails .aborted := by
  unfold checkFunction
  split
  · simp [Logged.fails_ite, coerceFunction, failStatically_not_aborted]
  · exact failStatically_not_aborted

theorem fails_dropRedundantChecks {args : List Expr} {vs : List Variable} {f : Failure} :
    ¬(dropRedundantChecks args vs).Fails f := by
  induction args generalizing vs with
  | nil => simp [dropRedundantChecks]
  | cons arg args ih =>
    cases vs with
    | nil => simp [dropRedundantChecks]
    | cons v vs =>
      unfold dropRedundantChecks
      dsimp only
      split <;> simp [Logged.fails_ite, ih]

theorem optimizeApply_not_aborted {f : Expr} {args : List Expr} :
    ¬(optimizeApply scope f args l).Fails .aborted := by
  have known {signature : Option Signature} :
      ¬(optimizeKnownApply scope signature f args l).Fails .aborted := by
    unfold optimizeKnownApply
    dsimp only
    split <;> simp [Logged.fails_ite, fails_dropRedundantChecks]
  unfold optimizeApply
  split
  · simp [Logged.fails_ite, failStatically_not_aborted, known]
  · exact known
  · exact known
  · exact failStatically_not_aborted

theorem deferring_ends {n : Nat} {old : Expr} {x : Nat → Compile Expr} (hx : Ends n x) :
    Ends n fun d => deferring old (x d) := by
  refine ⟨fun h => hx.finite ?_, fun d hd => by rw [hx.stable d hd]⟩
  unfold deferring at h
  split at h
  · cases h
  · exact h

end

/-! ### Truth values -/

/-- From the depth `n` on, compilation and simplification of expressions below the weight `n`
end. -/
structure EndsBelow (n : Nat) : Prop where
  compile : ∀ {scope : Scope} {e : Expr}, e.weight < n →
    Ends n fun d => (optimizerWithin d).compile scope e
  simplify : ∀ {mode : TruthMode} {scope : Scope} {e : Expr}, e.weight < n →
    Ends n fun d => (optimizerWithin d).simplify mode scope e

section

variable {n : Nat} (ih : EndsBelow n) {scope : Scope} {host : Host} {t : StaticType} {e : Expr}
    {l : Option Location}

include ih

theorem optimizeCall_ends {f : Builtin} {args : List Expr} (hweight : weightAll 1 args ≤ n) :
    Ends n fun d => optimizeCall (optimizerWithin d) scope f args l := by
  unfold optimizeCall
  rcases args with _ | ⟨arg, _ | ⟨arg', args⟩⟩
  · exact .pure _
  · simp only [weightAll] at hweight
    refine .ite (fun _ => .pure _) fun _ => .ite (fun _ => ?_) fun _ => ?_
    · refine (ih.simplify (by omega)).bind fun arg' _ =>
        (Ends.const lift_not_aborted).bind fun new? _ => ?_
      cases new? with
      | some new => exact .const fails_replace
      | none => exact .pure _
    · refine (Ends.const lift_not_aborted).bind fun new? _ => ?_
      cases new? with
      | some new => exact .const fails_replace
      | none => exact .pure _
  · exact .pure _

theorem flattenOperands_ends {isAnd : Bool} : {es : List Expr} → weightAll 6 es < n →
    Ends n fun d => flattenOperands (optimizerWithin d) scope isAnd es
  | [], _ => .pure _
  | e :: es, hweight => by
    rw [weightAll] at hweight
    refine (ih.simplify (by omega)).bind fun e' _ =>
      (flattenOperands_ends (by omega)).bind fun rest _ => ?_
    obtain ⟨form, τ, l⟩ := e'
    cases form <;> exact .pure _

theorem optimizeLogic_ends {isAnd : Bool} {operands : List Expr}
    (hweight : weightAll 6 operands < n) :
    Ends n fun d => optimizeLogic (optimizerWithin d) scope isAnd operands l := by
  refine (flattenOperands_ends ih hweight).bind fun flat hflat =>
    .ite (fun _ => .pure _) fun _ => ?_
  refine (Ends.const dropConstants_not_aborted).bind fun kept hkept => ?_
  have hflat := flattenOperands_weight (optimizerWithin_lightens n) hflat
  rcases kept with _ | (_ | ⟨e, _ | ⟨e', es⟩⟩)
  · exact .pure _
  · exact .pure _
  · have hone := weightAll_sublist 6 (dropConstants_sublist hkept)
    refine optimizeCall_ends ih ?_
    simp only [weightAll] at hone ⊢
    omega
  · exact .pure _

theorem optimizeConditional_ends {condition yes no : Expr} (hweight : condition.weight < n) :
    Ends n fun d => optimizeConditional (optimizerWithin d) scope condition yes no l := by
  refine (ih.simplify hweight).bind fun condition' _ => .ite (fun _ => ?_) fun _ => .pure _
  exact (Ends.const lift_not_aborted).bind fun truth _ =>
    (Ends.const fails_remark).bind fun _ _ => .pure _

/-! ### Predicates -/

theorem inlineRoot_ends (hweight : e.weight < n) :
    Ends n fun d => inlineRoot (optimizerWithin d) scope host e := by
  unfold inlineRoot
  cases host with
  | step axis test => exact .pure e
  | root root =>
    obtain ⟨form, τ, l⟩ := root
    cases form with
    | literal values =>
      rcases values with _ | ⟨v, _ | ⟨w, vs⟩⟩
      · exact .pure e
      · dsimp only
        cases hinlined : e.inlineContext? ⟨.literal [v], τ, l⟩ with
        | none => exact .pure e
        | some inlined =>
          unfold Expr.inlineContext? at hinlined
          obtain ⟨-, hinlined⟩ := Option.ite_none_right_eq_some.mp hinlined
          obtain rfl := Option.some.inj hinlined
          have hvalue : (⟨.literal [v], τ, l⟩ : Expr).weight = 1 := by
            simp only [Expr.weight, Form.weight]
          exact ih.compile (by rwa [Expr.weight_replaceContext hvalue])
      · exact .pure e
    | _ => exact .pure e

theorem finishPredicate_ends {old : Expr} (hweight : e.weight < n) :
    Ends n fun d => finishPredicate (optimizerWithin d) scope t host old e := by
  refine (Ends.const fails_unwrapPath).bind fun e' h => (inlineRoot_ends ih ?_).bind fun _ _ => ?_
  · exact Nat.lt_of_le_of_lt (unwrapPath_weight h) hweight
  · exact (Ends.const fails_replace).bind fun _ _ => .pure _

theorem simplifyPredicate_ends {positional : Bool} (hweight : e.weight < n) :
    Ends n fun d => simplifyPredicate (optimizerWithin d) scope t positional host e := by
  unfold simplifyPredicate
  refine .ite (fun _ => (Ends.const fails_remark).bind fun _ _ => .pure _) fun _ => ?_
  refine (Ends.const fails_optimizePositionTest).bind fun test htest => ?_
  refine (Ends.const fails_unwrapMap).bind fun changed hchanged => ?_
  have finish : Ends n fun d => finishPredicate (optimizerWithin d) scope t host e changed := by
    have htest := optimizePositionTest_weight htest
    have hchanged := unwrapMap_weight hchanged
    exact finishPredicate_ends ih (by omega)
  cases hself : selfStep? changed with
  | none => exact finish
  | some found =>
    obtain ⟨nodeTest, inner⟩ := found
    refine .ite (fun _ => finish) fun _ => ?_
    have remain : Ends n fun d => if nodeTest.isKindTest && inner.isEmpty &&
          t.item.instanceOf nodeTest.itemType then do
        remark ("remove predicate [" ++ changed.render ++ "]")
        return (host, [])
      else finishPredicate (optimizerWithin d) scope t host e changed :=
      .ite (fun _ => (Ends.const fails_remark).bind fun _ _ => .pure _) fun _ => finish
    cases host with
    | root r => exact remain
    | step axis own =>
      dsimp only
      generalize (if positional then none else
        (own.intersect nodeTest).map (Host.step axis)) = merged
      cases merged with
      | some host' => exact (Ends.const fails_remark).bind fun _ _ => .pure _
      | none => exact remain

theorem simplifyPredicates_ends {positional : Bool} :
    {es : List Expr} → {host : Host} → weightAll 4 es < n →
    Ends n fun d => simplifyPredicates (optimizerWithin d) scope t positional host es
  | [], _, _ => .pure _
  | e :: es, host, hweight => by
    rw [weightAll] at hweight
    refine (simplifyPredicate_ends ih (by omega)).bind fun result _ => ?_
    obtain ⟨host', simplified⟩ := result
    exact (simplifyPredicates_ends (by omega)).bind fun _ _ => .pure _

theorem operandPredicate_ends (hweight : e.weight < n) :
    Ends n fun d => operandPredicate (optimizerWithin d) scope l e := by
  unfold operandPredicate
  refine .ite (fun _ => optimizeCall_ends ih ?_) fun _ => .pure e
  simp only [weightAll]
  omega

theorem splitOperands_ends : {es : List Expr} → {list : PredicateList} → weightAll 6 es < n →
    Ends n fun d => splitOperands (optimizerWithin d) scope l list es
  | [], _, _ => .pure _
  | [e], _, hweight => by
    simp only [weightAll] at hweight
    exact (operandPredicate_ends ih (by omega)).bind fun _ _ => .pure _
  | e :: e₂ :: es, list, hweight => by
    rw [weightAll] at hweight
    refine (operandPredicate_ends ih (by omega)).bind fun e' _ => ?_
    exact (Ends.const PredicateList.fails_add).bind fun list' _ => splitOperands_ends (by omega)

theorem canonicalPredicate_ends {list : PredicateList} (hweight : e.weight < n) :
    Ends n fun d => canonicalPredicate (optimizerWithin d) scope list e := by
  unfold canonicalPredicate
  cases hsplit : splittable? e with
  | some operands =>
    have hoperands := splittable?_weight hsplit
    exact (Ends.const fails_remark).bind fun _ _ => splitOperands_ends ih (by omega)
  | none => exact (Ends.const lift_not_aborted).bind fun _ _ => .pure _

theorem canonicalList_ends : {es : List Expr} → {list : PredicateList} → weightAll 4 es < n →
    Ends n fun d => canonicalList (optimizerWithin d) scope host list es
  | [], _, _ => .pure _
  | e :: es, list, hweight => by
    rw [weightAll] at hweight
    unfold canonicalList
    refine (ih.simplify (by omega)).bind fun e₁ h₁ => ?_
    have hsimplified := (optimizerWithin_lightens n).simplify h₁
    refine (canonicalPredicate_ends ih (by omega)).bind fun canonical _ => ?_
    obtain ⟨list₂, e₂⟩ := canonical
    refine .ite (fun _ => (Ends.const fails_remark).bind fun _ _ => .pure _) fun _ => ?_
    exact (Ends.const PredicateList.fails_add).bind fun _ _ => canonicalList_ends (by omega)

theorem optimizePredicates_ends {es : List Expr} (hweight : weightAll 4 es < n) :
    Ends n fun d => optimizePredicates (optimizerWithin d) scope host es := by
  unfold optimizePredicates
  refine .ite (fun _ => .pure _) fun _ => ?_
  refine (simplifyPredicates_ends ih hweight).bind fun result h => ?_
  obtain ⟨host', simplified⟩ := result
  have hsimplified := simplifyPredicates_weight (optimizerWithin_lightens n) h
  refine (canonicalList_ends ih (Nat.lt_of_le_of_lt hsimplified hweight)).bind fun canonical _ => ?_
  cases canonical with
  | none => exact .pure _
  | some kept =>
    refine (Ends.const fails_mergeWindows).bind fun merged _ => ?_
    cases merged with
    | none => exact .pure _
    | some merged => exact .pure _

/-! ### Filters and steps -/

theorem optimizeFilter_ends {root : Expr} {predicates : List Expr}
    (hweight : weightAll 4 predicates < n) :
    Ends n fun d => optimizeFilter (optimizerWithin d) scope root predicates l :=
  (optimizePredicates_ends ih hweight).bind fun _ _ => .const fails_finishFilter

theorem optimizeStep_ends {axis : Axis} {test : NodeTest} {predicates : List Expr}
    (hweight : weightAll 4 predicates < n) :
    Ends n fun d => optimizeStep (optimizerWithin d) scope axis test predicates l := by
  refine (optimizePredicates_ends ih hweight).bind fun filtered _ => ?_
  obtain ⟨host, predicates', τ⟩ := filtered
  cases host with
  | root r => exact .const fails_finishStep
  | step axis' test' => exact .const fails_finishStep

section

variable {root : Expr} {predicates : List Expr} (hweight : weightAll 4 predicates < n)

include hweight

theorem remainingRoot_ends :
    Ends n fun d => remainingRoot (optimizerWithin d) scope root predicates := by
  have hlast : weightAll 4 predicates.dropLast ≤ weightAll 4 predicates := by
    cases hlast : predicates.getLast? with
    | none => simp [List.getLast?_eq_none_iff.mp hlast]
    | some last =>
      have := weightAll_getLast? 4 hlast
      omega
  unfold remainingRoot
  cases hothers : predicates.dropLast with
  | nil => exact .pure root
  | cons other others =>
    rw [hothers] at hlast
    exact optimizeFilter_ends ih (by omega)

theorem extendRoot_ends :
    Ends n fun d => extendRoot (optimizerWithin d) scope root predicates e := by
  have hremaining : Ends n fun d => remainingRoot (optimizerWithin d) scope root predicates :=
    remainingRoot_ends ih hweight
  unfold extendRoot
  refine .ite (fun _ => hremaining.map some) fun _ => ?_
  cases relativeSteps? e with
  | some steps => exact hremaining.bind fun _ _ => (Ends.const fails_optimizePath).map some
  | none => exact .pure none

theorem liftPredicate_ends :
    Ends n fun d => liftPredicate (optimizerWithin d) scope root predicates e := by
  refine (extendRoot_ends ih hweight).bind fun extended _ => ?_
  cases extended with
  | some path => exact .pure (some path)
  | none =>
    refine .ite (fun _ => ?_) fun _ => .pure none
    exact (remainingRoot_ends ih hweight).bind fun _ _ => (Ends.const fails_optimizeMap).map some

theorem simplifyFilter_ends :
    Ends n fun d => simplifyFilter (optimizerWithin d) scope root predicates := by
  unfold simplifyFilter
  cases predicates.getLast? with
  | none => exact .pure none
  | some last =>
    have lift : Ends n fun d => liftPredicate (optimizerWithin d) scope root predicates last :=
      liftPredicate_ends ih hweight
    have extend (operand : Expr) : Ends n fun d =>
        extendRoot (optimizerWithin d) scope root predicates operand :=
      extendRoot_ends ih hweight
    refine .ite (fun _ => .pure none) fun _ => ?_
    obtain ⟨form, τ, place⟩ := last
    cases form with
    | comparison style op left right =>
      cases style with
      | value => exact lift
      | general =>
        refine .ite (fun _ => lift) fun _ => (extend left).bind fun lifted _ => ?_
        cases lifted with
        | none => exact lift
        | some left' => exact (Ends.const optimizeComparison_not_aborted).map some
    | containsText input query =>
      refine .ite (fun _ => lift) fun _ => (extend input).bind fun lifted _ => ?_
      cases lifted with
      | none => exact lift
      | some input' => exact (Ends.const fails_optimizeSearch).map some
    | _ => exact lift

end

/-! ### Simplification -/

theorem simplerTruth_ends {mode : TruthMode} (hweight : e.weight ≤ n) :
    Ends n fun d => simplerTruth (optimizerWithin d) mode scope e := by
  obtain ⟨form, τ, l⟩ := e
  rw [Expr.weight] at hweight
  unfold simplerTruth
  cases form with
  | call f args =>
    cases f with
    | boolean | «exists» => rcases args with _ | ⟨arg, _ | ⟨arg', args⟩⟩ <;> exact .pure _
    | count =>
      rcases args with _ | ⟨arg, _ | ⟨arg', args⟩⟩
      · exact .pure none
      · refine .ite (fun _ => .pure none) fun _ => .ite (fun _ => .pure (some arg)) fun _ => ?_
        rw [Form.weight] at hweight
        exact (optimizeCall_ends ih (by omega)).map some
      · exact .pure none
    | _ => exact .pure none
  | filter root predicates =>
    rw [Form.weight] at hweight
    have := root.weight_pos
    exact simplifyFilter_ends ih (by omega)
  | _ => exact .pure none

theorem simplify_ends {mode : TruthMode} (hweight : e.weight ≤ n) :
    Ends n fun d => simplify (optimizerWithin d) mode scope e := by
  unfold simplify
  refine .ite (fun _ => .pure e) fun _ => (simplerTruth_ends ih hweight).bind fun new? hnew => ?_
  cases new? with
  | none => exact .pure e
  | some new =>
    have hlighter := simplerTruth_lighter (optimizerWithin_lightens n) hnew
    refine (Ends.const fails_replace).bind fun replaced hreplaced => ih.simplify ?_
    rw [← replace_gives.mp hreplaced, Expr.weight_at?]
    omega

/-! ### Compilation -/

theorem Expr.checkAs_ends {target : SeqType} {promote : Bool} :
    (e : Expr) → {l : Option Location} → e.weight ≤ n →
    Ends n fun d => e.checkAs (optimizerWithin d) scope target promote l
  | ⟨form, τ, place⟩, l, hweight => by
    unfold Expr.checkAs
    refine .ite (fun _ => .pure _) fun _ =>
      .ite (fun _ => (Ends.const fails_remark).bind fun _ _ => .pure _) fun _ => ?_
    cases form with
    | function f => exact .const checkFunction_not_aborted
    | literal values => exact .const checkLiteral_not_aborted
    | conditional condition yes no =>
      rw [Expr.weight, Form.weight] at hweight
      refine .ite (fun _ => .const failStatically_not_aborted) fun _ => ?_
      refine (Expr.checkAs_ends yes (by omega)).bind fun _ _ =>
        (Expr.checkAs_ends no (by omega)).bind fun _ _ => ?_
      exact optimizeConditional_ends ih (by omega)
    | _ => exact .ite (fun _ => .const failStatically_not_aborted) fun _ => .pure _

end

section

variable {n : Nat}

mutual

theorem Expr.compile_ends_of (ih : EndsBelow n) : (e : Expr) → {scope : Scope} → e.weight ≤ n →
    Ends n fun d => e.compile (optimizerWithin d) scope
  | ⟨form, τ, l⟩, scope, hweight => by
    rw [Expr.weight] at hweight
    simp only [Expr.compile]
    exact Form.compile_ends_of ih form hweight

theorem Form.compile_ends_of (ih : EndsBelow n) :
    (form : Form) → {scope : Scope} → {τ : StaticType} → {l : Option Location} →
    form.weight ≤ n → Ends n fun d => form.compile (optimizerWithin d) scope τ l
  | .literal _, _, _, _, _ | .position _, _, _, _, _ | .failure _, _, _, _, _ => by
    simp only [Form.compile]
    exact .pure _
  | .contextItem, scope, _, _, _ => by
    simp only [Form.compile]
    cases scope.focus with
    | some t => exact .pure _
    | none => exact .const failWith_not_aborted
  | .function f, _, _, _, hweight => by
    rw [Form.weight] at hweight
    simp only [Form.compile]
    exact (FunctionItem.compile_ends_of ih f (by omega)).bind fun _ _ => .pure _
  | .conjunction es, _, _, _, hweight | .disjunction es, _, _, _, hweight => by
    rw [Form.weight] at hweight
    simp only [Form.compile]
    refine (compileAll_ends_of ih 6 es (by omega)).bind fun es' h => optimizeLogic_ends ih ?_
    have := compileAll_weight (optimizerWithin_lightens n) 6 h
    omega
  | .comparison _ _ left right, _, _, _, hweight => by
    rw [Form.weight] at hweight
    simp only [Form.compile]
    exact (Expr.compile_ends_of ih left (by omega)).bind fun _ _ =>
        (Expr.compile_ends_of ih right (by omega)).bind fun _ _ =>
      .const optimizeComparison_not_aborted
  | .call f args, _, _, _, hweight => by
    have := f.weight_pos
    rw [Form.weight] at hweight
    simp only [Form.compile]
    refine (Ends.const requireFocus_not_aborted).bind fun _ _ => ?_
    refine (compileAll_ends_of ih 1 args (by omega)).bind fun args' h => optimizeCall_ends ih ?_
    have := compileAll_weight (optimizerWithin_lightens n) 1 h
    omega
  | .step _ _ predicates, _, _, _, hweight => by
    rw [Form.weight] at hweight
    simp only [Form.compile]
    refine (Ends.const requireNode_not_aborted).bind fun _ _ => ?_
    refine (compilePredicates_ends_of ih predicates (by omega)).bind fun predicates' h =>
      optimizeStep_ends ih ?_
    have := compilePredicates_weight (optimizerWithin_lightens n) h
    omega
  | .path root steps, _, _, _, hweight => by
    rw [Form.weight] at hweight
    simp only [Form.compile]
    exact (Expr.compile_ends_of ih root (by omega)).bind fun _ _ =>
        (compileChain_ends_of ih steps (by omega)).bind fun _ _ =>
      .const fails_optimizePath
  | .relativePath steps, _, _, _, hweight => by
    rw [Form.weight] at hweight
    simp only [Form.compile]
    exact (compileChain_ends_of ih steps (by omega)).bind fun _ _ => .const fails_optimizePath
  | .map operands, _, _, _, hweight => by
    rw [Form.weight] at hweight
    simp only [Form.compile]
    exact (compileChain_ends_of ih operands (by omega)).bind fun _ _ => .const fails_optimizeMap
  | .filter root predicates, _, _, _, hweight => by
    rw [Form.weight] at hweight
    have := root.weight_pos
    simp only [Form.compile]
    refine (Expr.compile_ends_of ih root (by omega)).bind fun root' _ => ?_
    refine (compilePredicates_ends_of ih predicates (by omega)).bind fun predicates' h =>
      optimizeFilter_ends ih ?_
    have := compilePredicates_weight (optimizerWithin_lightens n) h
    omega
  | .containsText input query, _, _, _, hweight => by
    rw [Form.weight] at hweight
    simp only [Form.compile]
    exact (Expr.compile_ends_of ih input (by omega)).bind fun _ _ =>
        (Expr.compile_ends_of ih query (by omega)).bind fun _ _ =>
      .const fails_optimizeSearch
  | .conditional condition yes no, _, _, _, hweight => by
    rw [Form.weight] at hweight
    simp only [Form.compile]
    refine (Expr.compile_ends_of ih condition (by omega)).bind fun condition' h => ?_
    refine (Expr.compile_ends_of ih yes (by omega)).bind fun _ _ =>
      (Expr.compile_ends_of ih no (by omega)).bind fun _ _ => ?_
    have := Expr.compile_weight (optimizerWithin_lightens n) h
    exact optimizeConditional_ends ih (by omega)
  | .reference v, scope, _, _, _ => by
    simp only [Form.compile]
    cases scope.lookup v.name with
    | some found => exact .pure _
    | none => exact .const failWith_not_aborted
  | .apply f args, _, _, _, hweight => by
    rw [Form.weight] at hweight
    simp only [Form.compile]
    exact (Expr.compile_ends_of ih f (by omega)).bind fun _ _ =>
        (compileAll_ends_of ih 1 args (by omega)).bind fun _ _ =>
      .const optimizeApply_not_aborted
  | .check operand _ _, _, _, _, hweight => by
    rw [Form.weight] at hweight
    simp only [Form.compile]
    refine (Expr.compile_ends_of ih operand hweight).bind fun operand' h =>
      Expr.checkAs_ends ih operand' ?_
    exact Nat.le_trans (Expr.compile_weight (optimizerWithin_lightens n) h) hweight

theorem FunctionItem.compile_ends_of (ih : EndsBelow n) :
    (f : FunctionItem) → {scope : Scope} → f.weight ≤ n →
    Ends n fun d => f.compile (optimizerWithin d) scope
  | .inline _ _ _ body, _, hweight => by
    rw [FunctionItem.weight] at hweight
    simp only [FunctionItem.compile]
    refine (Expr.compile_ends_of ih body hweight).bind fun body' h =>
      (Expr.checkAs_ends ih body' ?_).bind fun _ _ => .pure _
    exact Nat.le_trans (Expr.compile_weight (optimizerWithin_lightens n) h) hweight
  | .coerced .., _, _ => by
    simp only [FunctionItem.compile]
    exact .pure _

theorem compileAll_ends_of (ih : EndsBelow n) (share : Nat) :
    (es : List Expr) → {scope : Scope} → weightAll share es ≤ n →
    Ends n fun d => compileAll (optimizerWithin d) scope es
  | [], _, _ => by
    simp only [compileAll]
    exact .pure _
  | e :: es, _, hweight => by
    rw [weightAll] at hweight
    simp only [compileAll]
    exact (Expr.compile_ends_of ih e (by omega)).bind fun _ _ =>
        (compileAll_ends_of ih share es (by omega)).bind fun _ _ =>
      .pure _

theorem compileChain_ends_of (ih : EndsBelow n) :
    (es : List Expr) → {scope : Scope} → {before : Option ItemType} →
    weightAll 1 es ≤ n → Ends n fun d => compileChain (optimizerWithin d) scope before es
  | [], _, _, _ => by
    simp only [compileChain]
    exact .pure _
  | e :: es, _, _, hweight => by
    rw [weightAll] at hweight
    simp only [compileChain]
    exact (Expr.compile_ends_of ih e (by omega)).bind fun _ _ =>
        (compileChain_ends_of ih es (by omega)).bind fun _ _ =>
      .pure _

theorem compilePredicates_ends_of (ih : EndsBelow n) :
    (es : List Expr) → {scope : Scope} → weightAll 4 es ≤ n →
    Ends n fun d => compilePredicates (optimizerWithin d) scope es
  | [], _, _ => by
    simp only [compilePredicates]
    exact .pure _
  | e :: es, _, hweight => by
    rw [weightAll] at hweight
    simp only [compilePredicates]
    exact (deferring_ends (Expr.compile_ends_of ih e (by omega))).bind fun _ _ =>
      (compilePredicates_ends_of ih es (by omega)).bind fun _ _ => .pure _

end

end

theorem endsBelow (n : Nat) : EndsBelow n := by
  induction n with
  | zero =>
    exact ⟨fun hweight => absurd hweight (Nat.not_lt_zero _),
      fun hweight => absurd hweight (Nat.not_lt_zero _)⟩
  | succ n ih =>
    exact ⟨fun hweight => (Expr.compile_ends_of ih _ (Nat.le_of_lt_succ hweight)).succ fun _ => rfl,
      fun hweight => (simplify_ends ih (Nat.le_of_lt_succ hweight)).succ fun _ => rfl⟩

/-- Compilation with an optimizer as deep as the expression is heavy, or deeper, reaches no limit
and is always the same. -/
theorem Expr.compile_ends {n : Nat} (e : Expr) {scope : Scope} (hweight : e.weight ≤ n) :
    Ends n fun d => e.compile (optimizerWithin d) scope :=
  Expr.compile_ends_of (endsBelow n) e hweight

/-- The compilation of a query that is no heavier than its optimizer is deep reaches no limit, and
does not depend on the depth. -/
theorem Query.compile_ends {c : StaticContext} {e : Expr} (hdepth : e.weight ≤ c.optimizeDepth) :
    compile c e ≠ .error .aborted ∧ ∀ d, e.weight ≤ d →
    compile { c with optimizeDepth := d } e = compile c e := by
  have hends : Ends e.weight fun d => e.compile (optimizerWithin d) c.scope :=
    e.compile_ends (Nat.le_refl _)
  refine ⟨fun h => ?_, fun d hd => ?_⟩
  · have hfinite : ¬(e.compile (optimizerWithin c.optimizeDepth) c.scope).Fails .aborted :=
      (e.compile_ends hdepth).finite
    simp only [compile, StaticContext.optimizer] at h
    cases houtcome : (e.compile (optimizerWithin c.optimizeDepth) c.scope).outcome with
    | ok e' => simp [houtcome, Except.map] at h
    | error f =>
      simp only [houtcome, Except.map, Except.error.injEq] at h
      exact hfinite (h ▸ houtcome)
  · have hcompile : e.compile (optimizerWithin d) c.scope = e.compile
        (optimizerWithin c.optimizeDepth) c.scope :=
      (hends.stable d hd).trans (hends.stable c.optimizeDepth hdepth).symm
    unfold compile
    simp only [StaticContext.optimizer, StaticContext.scope] at hcompile ⊢
    rw [hcompile]

end TreeQuery
