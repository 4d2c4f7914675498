import TreeQuery.Proofs.Compile.PredicateCases
import TreeQuery.Proofs.Eval.Dependency
/-!
# Effects under the rules for static types

A constant takes the place of a comparison, a call, a path or a map that static types answer only if
no part of it has an effect: each of these rules asks for that. Three others do not: a search of
nothing is false whatever its query does, a filter or a step that nothing passes is empty whatever
its root and its predicates do, and of a filter of which no predicate is left the root stays
(`Expr.optimize_effects`). The first two lose traces that evaluation would write
(`Expr.optimize_loses_trace`).
-/

namespace TreeQuery

/-! ### Parts -/

def Form.parts : Form → List Expr
  | .literal _ | .function _ | .reference _ | .failure _ | .contextItem | .position _ => []
  | .conjunction es | .disjunction es | .map es | .relativePath es => es
  | .comparison _ _ left right => [left, right]
  | .call _ args => args
  | .step _ _ predicates => predicates
  | .path root steps => root :: steps
  | .filter root predicates => root :: predicates
  | .containsText input query => [input, query]
  | .conditional condition yes no => [condition, yes, no]
  | .apply f args => f :: args
  | .check e _ _ => [e]

theorem anyDependsOn_iff {d : Dependency} {es : List Expr} :
    anyDependsOn d es = true ↔ ∃ e ∈ es, e.dependsOn d = true := by
  induction es with
  | nil => simp [anyDependsOn]
  | cons e es ih => simp [anyDependsOn, ih]

theorem Form.dependsOn_effects {form : Form} :
    form.dependsOn .effects = true ↔ form.IsEffect ∨
    ∃ e ∈ form.parts, e.dependsOn .effects = true := by
  cases form with
  | call f args =>
    cases f <;> simp [dependsOn, IsEffect, parts, Dependency.ofBuiltin, anyDependsOn_iff]
  | map es => cases es <;> simp [dependsOn, IsEffect, parts, anyDependsOn_iff]
  | _ => simp [dependsOn, IsEffect, parts, anyDependsOn_iff, or_assoc]

theorem Form.parts_noEffects {form : Form} (h : form.dependsOn .effects = false) :
    ∀ e ∈ form.parts, e.dependsOn .effects = false := by
  intro e he
  rw [← Bool.not_eq_true, dependsOn_effects, not_or] at h
  exact Bool.eq_false_iff.mpr fun heffects => h.2 ⟨e, he, heffects⟩

theorem Form.noEffects_of_parts {form : Form} (hform : ¬form.IsEffect)
    (h : ∀ e ∈ form.parts, e.dependsOn .effects = false) : form.dependsOn .effects = false := by
  rw [← Bool.not_eq_true, dependsOn_effects]
  rintro (heffect | ⟨e, he, heffects⟩)
  · exact hform heffect
  · exact Bool.false_ne_true ((h e he).symm.trans heffects)

theorem Expr.noEffects_of_literal {e : Expr} {values : List Atomic} (h : e.form = .literal values) :
    e.dependsOn .effects = false :=
  noEffects_of_isConstant (by rw [isConstant, h])

/-! ### The rules -/

section Rules

variable {opt : Optimizer} {scope : Scope} {e : Expr} {values : List Atomic} {l : Option Location}

theorem optimizeComparison_effects {style : CompareStyle} {op : CompareOp} {left right : Expr}
    (h : (optimizeComparison scope style op left right l).Gives e) (he : e.form = .literal values) :
    left.dependsOn .effects = false ∧ right.dependsOn .effects = false := by
  obtain rfl | rfl | ⟨vs, ws, -, -, hvs, hws, -, -⟩ | ⟨-, ⟨-, heffects⟩, -⟩ :=
    optimizeComparison_cases h
  · cases he
  · cases he
  · rw [Expr.literalValues?_eq_some] at hvs hws
    exact ⟨Expr.noEffects_of_literal hvs, Expr.noEffects_of_literal hws⟩
  · exact heffects

theorem optimizeCall_effects {f : Builtin} {args : List Expr}
    (h : (optimizeCall opt scope f args l).Gives e) (hf : f ≠ .boolean ∧ f ≠ .not)
    (he : e.form = .literal values) : ∀ arg ∈ args, arg.dependsOn .effects = false := by
  obtain ⟨args', hargs', hcases⟩ := optimizeCall_cases h
  obtain rfl : args' = args := hargs'.resolve_right fun h => h.1.elim hf.1 hf.2
  obtain ⟨rfl, -⟩ | ⟨arg, new, place, rfl, hfold, rfl⟩ := hcases
  · cases he
  · rw [List.forall_mem_singleton]
    obtain ⟨hboolean, -⟩ | ⟨heffects, -⟩ | ⟨hnot, -⟩ := foldCall_cases hfold
    · exact absurd hboolean hf.1
    · exact heffects
    · exact absurd hnot hf.2

theorem noEffects_of_flattenSteps {steps : List Expr}
    (h : ∀ s ∈ flattenSteps scope steps, s.dependsOn .effects = false) :
    ∀ s ∈ steps, s.dependsOn .effects = false := by
  induction steps with
  | nil => simp
  | cons first rest ih =>
    rw [flattenSteps_cons, List.forall_mem_append] at h
    refine List.forall_mem_cons.mpr ⟨?_, ih h.2⟩
    rcases flattenSteps_single scope first with hsingle | ⟨inner, type, l, rfl, hinner⟩
    · rw [hsingle, List.forall_mem_singleton] at h
      exact h.1
    · rw [hinner] at h
      exact Form.noEffects_of_parts id h.1

theorem optimizePath_some_effects {root : Expr} {steps : List Expr}
    (h : (optimizePath scope (some root) steps l).Gives e) (he : e.form = .literal values) :
    ∀ o ∈ root :: steps, o.dependsOn .effects = false := by
  rw [List.forall_mem_cons]
  obtain ⟨hnil, rfl⟩ | ⟨-, rfl⟩ | ⟨⟨-, heffects⟩, -⟩ := optimizePath_some_cases h
  · have hsteps : ∀ s ∈ flattenSteps scope steps, s.dependsOn .effects = false := by simp [hnil]
    exact ⟨Expr.noEffects_of_literal he, noEffects_of_flattenSteps hsteps⟩
  · cases he
  · have hparts := List.forall_mem_cons.mp (Form.parts_noEffects heffects)
    exact ⟨hparts.1, noEffects_of_flattenSteps hparts.2⟩

theorem optimizePath_none_effects {steps : List Expr}
    (h : (optimizePath scope none steps l).Gives e) (he : e.form = .literal values) :
    ∀ s ∈ steps, s.dependsOn .effects = false := by
  obtain ⟨-, rfl⟩ | ⟨-, hstep⟩ | ⟨-, rfl⟩ | ⟨⟨-, heffects⟩, -⟩ := optimizePath_none_cases h
  · cases he
  · rw [Expr.isStep, he] at hstep
    cases hstep
  · cases he
  · exact noEffects_of_flattenSteps (Form.parts_noEffects heffects)

theorem noEffects_of_dropContextItems : {es kept : List Expr} → (dropContextItems es).Gives kept →
    (∀ e ∈ kept, e.dependsOn .effects = false) → ∀ e ∈ es, e.dependsOn .effects = false
  | [], _, h, hkept | [_], _, h, hkept => Logged.gives_pure.mp h ▸ hkept
  | ⟨form, τ, place⟩ :: second :: rest, kept, h, hkept => by
    obtain ⟨hfirst, -, h⟩ | rfl := dropContextItems_cons h
    · refine List.forall_mem_cons.mpr ⟨?_, noEffects_of_dropContextItems h hkept⟩
      cases form with
      | contextItem => rfl
      | _ => cases hfirst
    · exact hkept

theorem optimizeMap_effects {es : List Expr} (h : (optimizeMap scope es l).Gives e)
    (he : e.form = .literal values) : ∀ o ∈ es, o.dependsOn .effects = false := by
  obtain ⟨kept, hkept, h⟩ := optimizeMap_cases h
  have hnone : ∀ o ∈ kept, o.dependsOn .effects = false := by
    obtain ⟨operand, rfl, rfl⟩ | ⟨-, rfl⟩ | ⟨⟨-, heffects⟩, -⟩ := h
    · exact List.forall_mem_singleton.mpr (Expr.noEffects_of_literal he)
    · cases he
    · exact Form.parts_noEffects heffects
  obtain rfl | ⟨-, hdrop⟩ := hkept
  · exact hnone
  · exact noEffects_of_dropContextItems hdrop hnone

end Rules

/-! ### Nodes -/

/-- The forms with a rule that goes by the static types of their parts. -/
def Form.HasTypeRule : Form → Prop
  | .comparison .general _ _ _ | .call .exists _ | .call .empty _ | .call .count _ | .step
      .. | .path .. | .relativePath _
  | .map _ | .filter .. | .containsText .. => True
  | _ => False

def Form.filtering? : Form → Option (Host × List Expr)
  | .filter root predicates => some (.root root, predicates)
  | .step axis test predicates => some (.step axis test, predicates)
  | _ => none

variable {opt : Optimizer} {scope : Scope}

/-- If a constant takes the place of a node, then no part of it has an effect, unless it is a search
of what is empty by its static type, a filter or a step of which the optimized predicates pass
nothing, or a filter of a constant of which no predicate is left. -/
theorem Expr.optimize_effects {e e' : Expr} {values : List Atomic} (hrule : e.form.HasTypeRule)
    (h : (e.optimize opt scope).Gives e') (he' : e'.form = .literal values) :
    (∀ o ∈ e.form.parts, o.dependsOn .effects = false ∧ ∀ call env, o.Silent call env) ∨
    (∃ input query, e.form = .containsText input query ∧ input.type.isZero = true ∧
      values = [.boolean false]) ∨
    (∃ host predicates filtered, e.form.filtering? = some (host, predicates) ∧
      (optimizePredicates opt scope host predicates).Gives filtered ∧
      filtered.type = none ∧ values = []) ∨
    ∃ root predicates filtered, e.form = .filter root predicates ∧ root.form = .literal values ∧
      (optimizePredicates opt scope (.root root) predicates).Gives filtered ∧
      filtered.predicates = [] := by
  have silent {es : List Expr} (h : ∀ o ∈ es, o.dependsOn .effects = false) :
      ∀ o ∈ es, o.dependsOn .effects = false ∧ ∀ call env, o.Silent call env :=
    fun o ho => ⟨h o ho, fun call env => silent_of_noEffects call env (h o ho)⟩
  obtain ⟨form, τ, l⟩ := e
  cases form with
  | comparison style op left right =>
    have heffects := optimizeComparison_effects h he'
    exact .inl (silent (by simpa [Form.parts] using heffects))
  | call f args =>
    have hf : f ≠ .boolean ∧ f ≠ .not := by constructor <;> rintro rfl <;> exact hrule
    exact .inl (silent (optimizeCall_effects h hf he'))
  | path root steps => exact .inl (silent (optimizePath_some_effects h he'))
  | relativePath steps => exact .inl (silent (optimizePath_none_effects h he'))
  | map es => exact .inl (silent (optimizeMap_effects h he'))
  | containsText input query =>
    obtain rfl | ⟨hzero, rfl⟩ := optimizeSearch_cases h
    · cases he'
    · cases he'
      exact .inr (.inl ⟨input, query, rfl, hzero, rfl⟩)
  | filter root predicates =>
    obtain ⟨filtered, hfiltered, ⟨t, -, ⟨hnone, rfl⟩ | rfl⟩ | ⟨htype, place, rfl⟩⟩ :=
      optimizeFilter_cases h
    · exact .inr (.inr (.inr ⟨_, predicates, filtered, rfl, he', hfiltered, hnone⟩))
    · cases he'
    · cases he'
      exact .inr (.inr (.inl ⟨_, predicates, filtered, rfl, hfiltered, htype, rfl⟩))
  | step axis test predicates =>
    obtain ⟨filtered, hfiltered, ⟨axis', test', t, -, rfl⟩ | ⟨htype, place, rfl⟩⟩ :=
      optimizeStep_cases h
    · cases he'
    · cases he'
      exact .inr (.inr (.inl ⟨_, predicates, filtered, rfl, hfiltered, htype, rfl⟩))
  | _ => exact hrule.elim

/-- The empty sequence is equal to nothing, whatever a variable is bound to: neither side is
evaluated, and neither would write a trace. -/
theorem Expr.optimize_effects_comparison :
    let v : Variable := { name := .plain "v" }
    let e : Expr := .of (.comparison .general .eq .empty (.of (.reference v)))
    e.form.HasTypeRule ∧ (e.optimize (optimizerWithin 1) ⟨true, none, [v]⟩).Gives
      (Expr.ofBool false) ∧
      ∀ o ∈ e.form.parts, o.dependsOn .effects = false ∧ ∀ call env, o.Silent call env := by
  intro v e
  have hgives : (e.optimize (optimizerWithin 1) ⟨true, none, [v]⟩).Gives (Expr.ofBool false) := rfl
  refine ⟨trivial, hgives, (Expr.optimize_effects (e := e) trivial hgives rfl).resolve_right ?_⟩
  simp [e, Expr.of, Form.filtering?]

/-- A search and a filter whose traces are lost with them: `() contains text trace("x")` is false at
once, and `trace(1)[false()]` is empty. -/
theorem Expr.optimize_loses_trace :
    let search : Expr := .of (.containsText .empty (.call .trace [.literal [.string "x"]]))
    let filter : Expr := .of (.filter (.call .trace [.ofInt 1]) [.ofBool false])
    let env : Env := .ofContext { forest := .empty false, matcher := some fun text query => .ok (matchTokens text query) }
    (search.optimize (optimizerWithin 1) ⟨true, none, []⟩).Gives (.ofBool false) ∧
      (filter.optimize (optimizerWithin 1) ⟨true, none, []⟩).Gives .empty ∧
      (search.value (callWithin 0) env).log = [⟨"", "\"x\"", false⟩] ∧
      (filter.value (callWithin 0) env).log = [⟨"", "1", false⟩] := by
  exact ⟨rfl, rfl, by decide +kernel, by decide +kernel⟩

end TreeQuery
