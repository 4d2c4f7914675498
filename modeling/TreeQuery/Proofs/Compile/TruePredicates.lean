import TreeQuery.Compile.Expression
import TreeQuery.Proofs.Outcome
/-!
# Predicates that are always true

A literal `true()` among the predicates of a filter or a step is left out when the list is
optimized, and leaves no trace besides a remark: no rule for the predicates beside it sees it, and a
list that it leaves empty is like one that was empty before. So the outcome of a compilation is the
same with such literals and without them (`Expr.compile_truths`).
-/

namespace TreeQuery

/-- Whether the second list is the first with literals `true()` put in, at any places of the list
and of the query. -/
inductive TruthsPutIn : List Expr → List Expr → Prop
  | nil : TruthsPutIn [] []
  | keep {es fs : List Expr} (e : Expr) (h : TruthsPutIn es fs) : TruthsPutIn (e :: es) (e :: fs)
  | put {es fs : List Expr} (l : Option Location) (h : TruthsPutIn es fs) :
    TruthsPutIn es ((Expr.ofBool true).at? l :: fs)

namespace TruthsPutIn

variable {es fs es' fs' : List Expr}

theorem refl : (es : List Expr) → TruthsPutIn es es
  | [] => .nil
  | e :: es => .keep e (refl es)

theorem append (h : TruthsPutIn es fs) (h' : TruthsPutIn es' fs') :
    TruthsPutIn (es ++ es') (fs ++ fs') := by
  induction h with
  | nil => exact h'
  | keep e _ ih => exact .keep e ih
  | put l _ ih => exact .put l ih

theorem any_isPositional (h : TruthsPutIn es fs) :
    fs.any Expr.isPositional = es.any Expr.isPositional := by
  induction h with
  | nil => rfl
  | keep e _ ih => rw [List.any_cons, List.any_cons, ih]
  | put l _ ih => exact ih

end TruthsPutIn

/-! ### The rules for a literal `true()` -/

section Literal

variable {depth : Nat} {opt : Optimizer} {scope : Scope} (l : Option Location)

theorem replace_truth :
    replace ((Expr.ofBool true).at? l) ((Expr.ofBool true).at? l) = pure
      ((Expr.ofBool true).at? l) := by
  cases l <;> rfl

theorem inlineRoot_truth (host : Host) :
    inlineRoot opt scope host ((Expr.ofBool true).at? l) = pure ((Expr.ofBool true).at? l) := by
  cases host with
  | step axis test => rfl
  | root root =>
    rw [inlineRoot]
    split <;> rfl

theorem simplifyPredicate_truth (t : StaticType) (positional : Bool) (host : Host) :
    simplifyPredicate opt scope t positional host ((Expr.ofBool true).at? l) = pure
      (host, [(Expr.ofBool true).at? l]) := by
  show finishPredicate opt scope t host ((Expr.ofBool true).at? l) ((Expr.ofBool true).at? l) = _
  show (do
    let e ← inlineRoot opt scope host ((Expr.ofBool true).at? l)
    let e ← replace ((Expr.ofBool true).at? l) e
    return (host, [e])) = _
  rw [inlineRoot_truth, Logged.pure_bind, replace_truth, Logged.pure_bind]

theorem simplify_literalTrue (hscope : scope.optimize = true) :
    (optimizerWithin (depth + 1)).simplify .predicate scope ((Expr.ofBool true).at? l) = pure
      ((Expr.ofBool true).at? l) := by
  show TreeQuery.simplify _ _ _ _ = _
  rw [simplify, hscope]
  rfl

theorem PredicateList.add_truth (list : PredicateList) :
    (list.add ((Expr.ofBool true).at? l)).Gives list := by
  have hpositional : ((Expr.ofBool true).at? l).isPositional = false := rfl
  obtain ⟨kept, positional⟩ := list
  rw [add, hpositional, Bool.or_false]
  rfl

theorem canonicalList_truth (hscope : scope.optimize = true) (host : Host) (list : PredicateList)
    (es : List Expr) :
    (canonicalList (optimizerWithin (depth + 1)) scope host list
      ((Expr.ofBool true).at? l :: es)).outcome = (canonicalList
      (optimizerWithin (depth + 1)) scope host list es).outcome := by
  rw [canonicalList, simplify_literalTrue l hscope, Logged.pure_bind]
  show (list.add ((Expr.ofBool true).at? l) >>= fun list =>
    canonicalList (optimizerWithin (depth + 1)) scope host list es).outcome = _
  rw [Logged.outcome_bind, PredicateList.add_truth l list]
  rfl

end Literal

/-! ### Lists -/

section Lists

variable {depth : Nat} {opt : Optimizer} {scope : Scope} {es fs : List Expr}

theorem compilePredicates_truths (h : TruthsPutIn es fs) :
    (compilePredicates opt scope es).Matches Eq TruthsPutIn (compilePredicates opt scope fs) := by
  induction h with
  | nil => exact .pure .nil
  | keep e _ ih =>
    rw [compilePredicates, compilePredicates]
    refine .bind (.of_outcome_eq (fun _ => rfl) rfl) ?_
    rintro e _ rfl
    exact ih.bind fun rest rest' hrest => .pure (.keep e hrest)
  | @put es fs l _ ih =>
    have hput : compilePredicates opt scope ((Expr.ofBool true).at? l :: fs) =
        compilePredicates opt scope fs >>= fun rest =>
          pure ((Expr.ofBool true).at? l :: rest) := rfl
    rw [hput, ← bind_pure (compilePredicates opt scope es)]
    exact ih.bind fun rest rest' hrest => .pure (.put l hrest)

theorem simplifyPredicates_truths (t : StaticType) (positional : Bool) (h : TruthsPutIn es fs)
    (host : Host) :
    (simplifyPredicates opt scope t positional host es).Matches Eq
      (fun a b => a.1 = b.1 ∧ TruthsPutIn a.2 b.2)
      (simplifyPredicates opt scope t positional host fs) := by
  induction h generalizing host with
  | nil => exact .pure ⟨rfl, .nil⟩
  | keep e _ ih =>
    rw [simplifyPredicates, simplifyPredicates]
    refine .bind (.of_outcome_eq (fun _ => rfl) rfl) ?_
    rintro ⟨host, simplified⟩ _ rfl
    refine (ih host).bind ?_
    rintro ⟨host, rest⟩ ⟨_, rest'⟩ ⟨rfl, hrest⟩
    exact .pure ⟨rfl, (TruthsPutIn.refl simplified).append hrest⟩
  | @put es fs l _ ih =>
    rw [simplifyPredicates, simplifyPredicate_truth, Logged.pure_bind,
      ← bind_pure (simplifyPredicates opt scope t positional host es)]
    refine (ih host).bind ?_
    rintro ⟨host, rest⟩ ⟨_, rest'⟩ ⟨rfl, hrest⟩
    exact .pure ⟨rfl, .put l hrest⟩

theorem canonicalList_truths (hscope : scope.optimize = true) (h : TruthsPutIn es fs) (host : Host)
    (list : PredicateList) :
    (canonicalList (optimizerWithin (depth + 1)) scope host list es).outcome =
    (canonicalList (optimizerWithin (depth + 1)) scope host list fs).outcome := by
  induction h generalizing list with
  | nil => rfl
  | keep e _ ih => simp only [canonicalList, Logged.outcome_bind, apply_ite Logged.outcome, ih]
  | put l _ ih => rw [canonicalList_truth l hscope, ih]

theorem optimizePredicates_eq (hscope : scope.optimize = true) (host : Host) :
    optimizePredicates opt scope host es = (do
      let inside := scope.withFocus (some host.type.item)
      let (host', simplified) ← simplifyPredicates opt inside host.type
        (es.any Expr.isPositional) host es
      match ← canonicalList opt inside host' ⟨[], false⟩ simplified with
      | none => return ⟨host', [], none⟩
      | some kept =>
        match ← mergeWindows kept with
        | none => return ⟨host', [], none⟩
        | some merged => return ⟨host', merged, filteredType host'.type merged⟩) := by
  rw [optimizePredicates, hscope]
  cases es <;> rfl

/-- Optimizing a list with literals `true()` comes to the same host, predicates and type as without
them. -/
theorem optimizePredicates_truths (hscope : scope.optimize = true) (h : TruthsPutIn es fs)
    (host : Host) : (optimizePredicates (optimizerWithin (depth + 1)) scope host es).outcome =
      (optimizePredicates (optimizerWithin (depth + 1)) scope host fs).outcome := by
  have hinside : (scope.withFocus (some host.type.item)).optimize = true := hscope
  rw [optimizePredicates_eq hscope, optimizePredicates_eq hscope, h.any_isPositional]
  refine Logged.Matches.iff_outcome_eq.mp ((simplifyPredicates_truths _ _ h host).bind ?_)
  rintro ⟨host', simplified⟩ ⟨_, simplified'⟩ ⟨rfl, hsimplified⟩
  rw [Logged.Matches.iff_outcome_eq, Logged.outcome_bind, Logged.outcome_bind,
    canonicalList_truths hinside hsimplified]

theorem optimizeFilter_truths (hscope : scope.optimize = true) (h : TruthsPutIn es fs) (root : Expr)
    (l : Option Location) : (optimizeFilter (optimizerWithin (depth + 1)) scope root es l).outcome =
      (optimizeFilter (optimizerWithin (depth + 1)) scope root fs l).outcome := by
  rw [optimizeFilter, optimizeFilter, Logged.outcome_bind, Logged.outcome_bind,
    optimizePredicates_truths hscope h]

theorem optimizeStep_truths (hscope : scope.optimize = true) (h : TruthsPutIn es fs) (axis : Axis)
    (test : NodeTest) (l : Option Location) :
    (optimizeStep (optimizerWithin (depth + 1)) scope axis test es l).outcome =
      (optimizeStep (optimizerWithin (depth + 1)) scope axis test fs l).outcome := by
  rw [optimizeStep, optimizeStep, Logged.outcome_bind, Logged.outcome_bind,
    optimizePredicates_truths hscope h]

end Lists

/-! ### Filters and steps -/

/-- Whether the second form is the first, a filter or a step, with literals `true()` put in among
its predicates. -/
inductive Form.TruthsPutIn : Form → Form → Prop
  | filter {es fs : List Expr} (root : Expr) (h : TreeQuery.TruthsPutIn es fs) :
    TruthsPutIn (.filter root es) (.filter root fs)
  | step {es fs : List Expr} (axis : Axis) (test : NodeTest) (h : TreeQuery.TruthsPutIn es fs) :
    TruthsPutIn (.step axis test es) (.step axis test fs)

/-- Literals `true()` among the predicates of a filter or a step change nothing where optimization
is wanted: compilation fails with the same error, or it gives the same tree with the same static
types and places. -/
theorem Expr.compile_truths {depth : Nat} {scope : Scope} (hscope : scope.optimize = true)
    {form form' : Form} (h : form.TruthsPutIn form') (τ τ' : StaticType) (l : Option Location) :
    (Expr.compile (optimizerWithin (depth + 1)) scope ⟨form, τ, l⟩).outcome =
      (Expr.compile (optimizerWithin (depth + 1)) scope ⟨form', τ', l⟩).outcome := by
  refine Logged.Matches.iff_outcome_eq.mp ?_
  cases h with
  | filter root h =>
    rw [compile, compile, Form.compile, Form.compile]
    refine .bind (.of_outcome_eq (fun _ => rfl) rfl) ?_
    rintro root _ rfl
    refine (compilePredicates_truths h).bind fun es fs h => ?_
    exact Logged.Matches.iff_outcome_eq.mpr (optimizeFilter_truths hscope h root l)
  | step axis test h =>
    rw [compile, compile, Form.compile, Form.compile]
    refine .bind (.of_outcome_eq (fun _ => rfl) rfl) fun _ _ _ => ?_
    refine (compilePredicates_truths h).bind fun es fs h => ?_
    exact Logged.Matches.iff_outcome_eq.mpr (optimizeStep_truths hscope h axis test l)

/-- A `true()` between two windows does not keep them apart: `$v[position() > 1][true()][2]` is
`$v[position() = 3]`, as it is without the `true()` and with one at the end. -/
theorem Expr.compile_truths_between_windows :
    let v : Variable := { name := .plain "v" }
    let scope : Scope := ⟨true, none, [v]⟩
    let afterFirst : Expr := .of (.comparison .general .gt (.call .position []) (.ofInt 1))
    let es := [afterFirst, .ofInt 2]
    let fs := [afterFirst, .ofBool true, .ofInt 2, (Expr.ofBool true).at? (some ⟨1, 30⟩)]
    let root : Expr := .of (.reference v)
    let third : Expr := .of (.position ⟨3, 3, by decide, by decide, by decide⟩)
    scope.optimize = true ∧ (Form.filter root es).TruthsPutIn (.filter root fs) ∧
      (Expr.compile (optimizerWithin 1) scope (.of (.filter root es))).outcome =
        (Expr.compile (optimizerWithin 1) scope (.of (.filter root fs))).outcome ∧
      (Expr.compile (optimizerWithin 1) scope (.of (.filter root fs))).outcome =
        .ok ((Expr.of (.filter root [third])).typed (.of .any .zeroOrOne)) := by
  intro v scope afterFirst es fs root third
  have hput : (Form.filter root es).TruthsPutIn (.filter root fs) :=
    .filter root (.keep _ (.put none (.keep _ (.put _ .nil))))
  exact ⟨rfl, hput, Expr.compile_truths rfl hput _ _ none, rfl⟩

end TreeQuery
