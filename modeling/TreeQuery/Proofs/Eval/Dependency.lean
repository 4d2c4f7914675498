import TreeQuery.Proofs.Eval.Promise
/-!
# Dependencies are all there are

What `Expr.dependsOn` denies cannot be noticed: without a dependency on the position, or on the
context item, evaluation runs alike in foci that differ in no more than that, and without effects no
call of `trace` writes to the log (`Expr.dependsOn_sound`). The first two follow the focus through
the expression (`Expr.iterate_withFocus`); the third is a promise that is kept by all forms but
calls.
-/

namespace TreeQuery

/-- Whether evaluation runs alike in two environments: with the same cursor, value and truth, or the
same failure, and the same log. -/
structure Expr.RunsAlike (e : Expr) (call : Caller) (env env' : Env) : Prop where
  iterate : e.iterate call env = e.iterate call env'
  value : e.value call env = e.value call env'
  truth : e.truth call env = e.truth call env'

theorem Expr.runsAlike_of_alike {call : Caller} (hcall : call.IgnoresFocus) (env : Env) {e : Expr}
    {f g : Focus} (h : Focus.Alike (e.dependsOn ·) f g) :
    e.RunsAlike call (env.withFocus f) (env.withFocus g) :=
  have h : Focus.Alike (e.dependsOn ·) (env.withFocus f).focus g := h
  ⟨(Expr.iterate_withFocus hcall e h).symm, (Expr.value_withFocus hcall e h).symm,
    (Expr.truth_withFocus hcall e h).symm⟩

/-! ### Effects -/

/-- The promise that nothing but remarks of the evaluation itself is logged. -/
def Promise.silent : Promise := ⟨fun t => t.isRemark = true, fun _ => True, fun _ => True⟩

theorem Promise.silent_lawful : silent.Lawful where
  node _ := trivial
  atomic _ := trivial
  coerce _ _ := trivial
  remark _ _ := rfl
  error _ := trivial
  aborted := trivial
  placeless _ _ _ := trivial

/-- Whether evaluation writes no trace: neither at once, nor in any pull on the cursor that it
gives. -/
structure Expr.Silent (e : Expr) (call : Caller) (env : Env) : Prop where
  iterate : (e.iterate call env).Keeps .silent (Cursor.Keeps .silent)
  value : ∀ t ∈ (e.value call env).log, t.isRemark = true
  truth : ∀ t ∈ (e.truth call env).log, t.isRemark = true

def Form.IsEffect : Form → Prop
  | .call .trace _ | .apply .. => True
  | _ => False

def Demand.noEffects : Demand Bool where
  enter _ _ := false
  node outside form _ := outside = true → ¬form.IsEffect

theorem FunctionItem.satisfies_noEffects (f : FunctionItem) : f.Satisfies .noEffects true := by
  have idle : Demand.noEffects.Idle (· = false) :=
    ⟨fun _ _ _ => rfl, fun _ _ => trivial, fun _ _ _ ha h => Bool.noConfusion (ha.symm.trans h)⟩
  exact FunctionItem.satisfies_of_enter idle (fun _ => rfl) f

mutual

theorem Expr.satisfies_noEffects :
    (e : Expr) → e.dependsOn .effects = false → e.Satisfies .noEffects true
  | ⟨form, _, _⟩, h => by
    rw [Expr.dependsOn] at h
    refine ⟨fun _ => ?_, Form.satisfies_noEffects form h⟩
    intro heffect
    unfold Form.IsEffect at heffect
    split at heffect
    · simp [Form.dependsOn, Dependency.ofBuiltin] at h
    · simp [Form.dependsOn] at h
    · exact heffect

theorem Form.satisfies_noEffects : (form : Form) → form.dependsOn .effects = false →
    form.Satisfies .noEffects true
  | .literal _, _ | .contextItem, _ | .position _, _ | .reference _, _ | .failure _, _ => trivial
  | .function f, _ => f.satisfies_noEffects
  | .conjunction es, h | .disjunction es, h =>
    allSatisfy_noEffects es (by simpa [Form.dependsOn] using h)
  | .call _ es, h | .step _ _ es, h | .relativePath es, h => by
    refine allSatisfy_noEffects es ?_
    simp only [Form.dependsOn, Bool.or_eq_false_iff, Bool.and_eq_false_iff] at h
    simpa using h.2
  | .map [], _ => trivial
  | .map (e :: es), h | .path e es, h | .filter e es, h => by
    simp only [Form.dependsOn, Bool.or_eq_false_iff] at h
    exact ⟨Expr.satisfies_noEffects e h.1, allSatisfy_noEffects es (by simpa using h.2)⟩
  | .comparison _ _ e d, h | .containsText e d, h => by
    simp only [Form.dependsOn, Bool.or_eq_false_iff] at h
    exact ⟨Expr.satisfies_noEffects e h.1, Expr.satisfies_noEffects d h.2⟩
  | .conditional condition yes no, h => by
    simp only [Form.dependsOn, Bool.or_eq_false_iff] at h
    exact ⟨Expr.satisfies_noEffects condition h.1.1, Expr.satisfies_noEffects yes h.1.2,
      Expr.satisfies_noEffects no h.2⟩
  | .apply _ _, h => by simp [Form.dependsOn] at h
  | .check e _ _, h => Expr.satisfies_noEffects e (by simpa [Form.dependsOn] using h)

theorem allSatisfy_noEffects : (es : List Expr) → anyDependsOn .effects es = false →
    AllSatisfy .noEffects true es
  | [], _ => trivial
  | e :: es, h => by
    simp only [anyDependsOn, Bool.or_eq_false_iff] at h
    exact ⟨Expr.satisfies_noEffects e h.1, allSatisfy_noEffects es h.2⟩

end

/-- References log remarks at most: on functions that are given the signature they were declared
with. -/
theorem Env.lookup_silent (env : Env) (v : Variable) (l : Option Location) :
    (env.lookup v l).Keeps .silent Promise.silent.items :=
  env.lookup_keeps Promise.silent_lawful l (fun _ _ _ _ => trivial)
    (fun _ _ _ _ => trivial) fun _ _ => trivial

theorem policy_silent (call : Caller) : Policy .silent call .noEffects true fun _ => True where
  lawful := Promise.silent_lawful
  focus _ _ := trivial
  absent _ _ := trivial
  focusOn _ _ _ _ _ := trivial
  streamed := .inl fun _ _ _ _ => trivial
  size {env} _ := by
    unfold Env.contextSize
    split
    · exact .pure trivial
    all_goals exact .fail trivial
  matcher _ _ _ _ _ _ := trivial
  function _ _ := trivial
  failure _ := trivial
  reference _ _ l := Env.lookup_silent _ _ l
  trace h := absurd trivial (h rfl)
  apply _ h := absurd trivial (h rfl)

theorem Expr.silent_of_noEffects (call : Caller) (env : Env) {e : Expr}
    (h : e.dependsOn .effects = false) : e.Silent call env := by
  have hnodes := Expr.satisfies_noEffects e h
  have hpolicy := policy_silent call
  exact ⟨Expr.iterate_keeps hpolicy e trivial hnodes,
    (Expr.value_keeps hpolicy e trivial hnodes).log,
    (Expr.truth_keeps hpolicy e trivial hnodes).log⟩

/-! ### All dependencies -/

/-- Without a dependency on the position evaluation runs alike wherever the context item stands;
without one on the context item, for all context items in the same place; and without effects it
writes no trace. -/
theorem Expr.dependsOn_sound (depth : Nat) (env : Env) (e : Expr) (x y : Item) (n m : Nat)
    (size size' : Option Nat) : (e.dependsOn .position = false →
      e.RunsAlike (callWithin depth) (env.withFocus ⟨some x, n, size⟩)
        (env.withFocus ⟨some x, m, size'⟩)) ∧
    (e.dependsOn .context = false →
      e.RunsAlike (callWithin depth) (env.withFocus ⟨some x, n, size⟩)
        (env.withFocus ⟨some y, n, size⟩)) ∧
    (e.dependsOn .effects = false → e.Silent (callWithin depth) env) := by
  have hcall := callWithin_ignoresFocus depth
  refine ⟨?_, ?_, ?_⟩
  · intro hposition
    exact runsAlike_of_alike hcall env (.placed hposition m size')
  · intro hcontext
    exact runsAlike_of_alike hcall env
      ⟨fun h => absurd h (by simp [hcontext]), fun _ => ⟨rfl, rfl, rfl⟩⟩
  · intro heffects
    exact silent_of_noEffects (callWithin depth) env heffects

/-- A filter asks its own focus for the items of its root and not the focus around it. -/
theorem Expr.dependsOn_sound_filter :
    let e : Expr :=
    .of (.filter (.literal [.integer 1, .integer 2])
      [.of (.comparison .value .eq .contextItem (.ofInt 2))])
    let env : Env := .ofContext { forest := .empty false }
    (e.dependsOn .position = false ∧ e.dependsOn .context = false ∧ e.dependsOn .effects = false) ∧
    e.RunsAlike (callWithin 1) (env.withFocus ⟨some (.atomic (.integer 5)), 1, some 1⟩)
      (env.withFocus ⟨some (.atomic (.integer 5)), 3, none⟩) ∧
    e.RunsAlike (callWithin 1) (env.withFocus ⟨some (.atomic (.integer 5)), 1, some 1⟩)
      (env.withFocus ⟨some (.node 0), 1, some 1⟩) ∧
    e.Silent (callWithin 1) env := by
  intro e env
  have sound := Expr.dependsOn_sound 1 env e (.atomic (.integer 5)) (.node 0) 1 3 (some 1) none
  exact ⟨⟨rfl, rfl, rfl⟩, sound.1 rfl, sound.2.1 rfl, sound.2.2 rfl⟩

end TreeQuery
