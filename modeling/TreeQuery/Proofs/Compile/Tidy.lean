import TreeQuery.Proofs.Compile.Expression
/-!
# What compilation leaves

Where it optimizes, compilation leaves expressions tidy: the context item is a single item, a path
has steps, of which none is a relative path, and static types are those that the rules compute from
the static types of the operands (`compilePredicates_tidy`). So they tell how many items there can
be by the form of an expression alone.
-/

namespace TreeQuery

/-- Whether the steps of nested paths are written out. -/
def WrittenOut (steps : List Expr) : Prop := ∀ s ∈ steps, ∀ inner, s.form ≠ .relativePath inner

def Demand.tidy : Demand Unit where
  enter _ _ := ()
  node _ form τ := match form with
    | .contextItem => ∃ t, τ = .of t .one
    | .failure _ => True
    | .path root steps => steps ≠ [] ∧ WrittenOut steps ∧ τ = (Form.path root steps).computedType
    | .relativePath steps => steps ≠ [] ∧ WrittenOut steps ∧
      τ = (Form.relativePath steps).computedType
    | form => τ = form.computedType

/-- What it takes for that: constants carry their own static types, relative paths have steps, and
functions that were given another signature are tidy. -/
def Demand.tidySource : Demand Unit where
  enter _ _ := ()
  node _ form τ := match form with
    | .literal _ | .position _ => τ = form.computedType
    | .relativePath steps => steps ≠ []
    | .function (.coerced _ _ inner) => inner.Satisfies .tidy ()
    | _ => True

/-- An expression as compilation leaves it. -/
def Expr.Tidy (e : Expr) : Prop := e.Satisfies .tidy ()

section

variable {scope : Scope} {steps : List Expr}

theorem tidy_writtenOut {e : Expr} (he : e.Tidy) :
    ∀ inner, e.form = .relativePath inner → inner ≠ [] ∧ WrittenOut inner := by
  obtain ⟨form, τ, l⟩ := e
  rintro inner rfl
  exact ⟨he.1.1, he.1.2.1⟩

theorem flattenSteps_ne_nil_of_tidy (h : AllSatisfy .tidy () steps) (hsteps : steps ≠ []) :
    flattenSteps scope steps ≠ [] :=
  flattenSteps_ne_nil (fun s hs inner hinner =>
    (tidy_writtenOut (allSatisfy_iff.mp h s hs) inner hinner).1) hsteps

theorem writtenOut_flattenSteps (hoptimize : scope.optimize = true)
    (h : AllSatisfy .tidy () steps) : WrittenOut (flattenSteps scope steps) := by
  induction steps with
  | nil => exact fun s hs => absurd hs List.not_mem_nil
  | cons e es ih =>
    have hrest := ih h.2
    obtain ⟨form, τ, l⟩ := e
    cases form with
    | relativePath inner =>
      have hinner : WrittenOut inner := h.1.1.2.1
      simp only [flattenSteps, hoptimize, if_true]
      exact fun s hs => (List.mem_append.mp hs).elim (hinner s) (hrest s)
    | _ =>
      rw [flattenSteps]
      exact List.forall_mem_cons.mpr ⟨by simp, hrest⟩

end

theorem tidySource_of_tidy {a : Unit} {form : Form} {τ : StaticType} (h : Demand.tidy.node a form τ)
    (hform : form.Satisfies .tidy a) : Demand.tidySource.node a form τ := by
  cases form with
  | literal values => exact h
  | position w => exact h
  | relativePath steps => exact h.1
  | function f =>
    cases f with
    | inline name s params body => trivial
    | coerced name s inner => exact hform
  | _ => trivial

theorem transfer_tidy : Transfer .tidySource .tidy fun _ scope => scope.optimize = true where
  enter := rfl
  inline := rfl
  withFocus h _ := h
  withVariables h _ := h
  ordinary _ form h := by
    cases form with
    | contextItem => cases h
    | path root steps => cases h
    | relativePath steps => cases h
    | failure e => cases h
    | _ => rfl
  leaf {a form τ} hleaf h := by
    cases form with
    | literal values => exact h
    | position w => exact h
    | failure e => trivial
    | _ => cases hleaf
  contextItem _ t := ⟨t, rfl⟩
  path hscope h hne _ := ⟨hne, writtenOut_flattenSteps hscope h, rfl⟩
  relativePath hscope h hne := ⟨hne, writtenOut_flattenSteps hscope h, rfl⟩
  stepless {a scope source steps τ} _ hsource hlength h hnil := by
    have hsteps : steps ≠ [] := fun hsteps =>
      hsource (List.length_eq_zero_iff.mp (hlength.trans (hsteps ▸ rfl)))
    exact absurd hnil (flattenSteps_ne_nil_of_tidy h hsteps)
  rootless h := h.1
  compiled _ _ _ _ := rfl
  recast _ _ := rfl
  deferred _ _ _ _ := trivial
  reference _ _ _ := rfl
  conditional _ _ _ _ := rfl
  coerced h := h
  again _ _ _ h hform := tidySource_of_tidy h hform
  inlined {a form τ} h value := by
    cases form with
    | map es => cases es <;> trivial
    | function f => exact h
    | literal values => exact h
    | position w => exact h
    | relativePath steps => exact h
    | _ => trivial

section

variable {d : Nat} {scope : Scope} (hoptimize : scope.optimize = true)

include hoptimize

theorem compileAll_tidy {source es : List Expr} (hsource : AllSatisfy .tidySource () source)
    (h : (compileAll (optimizerWithin d) scope source).Gives es) : AllSatisfy .tidy () es :=
  (compileAll_yields transfer_tidy (optimizerWithin_transfers transfer_tidy d) source hoptimize
    hsource).answer es h

theorem compileChain_tidy {source es : List Expr} {t : Option ItemType}
    (hsource : AllSatisfy .tidySource () source)
    (h : (compileChain (optimizerWithin d) scope t source).Gives es) : AllSatisfy .tidy () es :=
  ((compileChain_yields transfer_tidy (optimizerWithin_transfers transfer_tidy d) source t hoptimize
    hsource).answer es h).1

theorem compilePredicates_tidy {source es : List Expr} (hsource : AllSatisfy .tidySource () source)
    (h : (compilePredicates (optimizerWithin d) scope source).Gives es) : AllSatisfy .tidy () es :=
  (compilePredicates_yields transfer_tidy (optimizerWithin_transfers transfer_tidy d) source
    hoptimize hsource).answer es h

end

end TreeQuery
