import TreeQuery.Proofs.Cursor.Resemblance
import TreeQuery.Proofs.Eval.Focus
/-!
# What evaluation looks at

Evaluation looks at places when something fails, and asks a static type two things: whether there
may be a number, of a predicate, and whether there is at most one item, of the root and the steps of
a path. An expression of which no more is left than that is evaluated as before: to a cursor that
resembles the old one, and to the same value, truth and score (`Expr.iterate_gist`). So expressions
that differ in nothing else, as those that are written twice in a query, can stand for each other
(`Expr.iterate_of_gist_eq`). Function items are values, and stay what they are.
-/

namespace TreeQuery

/-- What evaluation asks of a static type. -/
inductive Inquiry where
  | nothing
  /-- Whether there is at most one item. -/
  | amount
  /-- Whether there may be a number. -/
  | number

/-- A static type that answers alike. -/
def StaticType.gist (t : StaticType) : Inquiry → StaticType
  | .nothing => .anything
  | .amount => if t.atMostOne then .of .any .zeroOrOne else .anything
  | .number => if t.mayBeNumber then .anything else .boolean

@[simp] theorem StaticType.atMostOne_gist (t : StaticType) :
    (t.gist .amount).atMostOne = t.atMostOne := by
  rw [gist]
  split
  · next h => exact h.symm
  · next h => exact (Bool.eq_false_iff.mpr h).symm

@[simp] theorem StaticType.mayBeNumber_gist (t : StaticType) :
    (t.gist .number).mayBeNumber = t.mayBeNumber := by
  rw [gist]
  split
  · next h => exact h.symm
  · next h => exact (Bool.eq_false_iff.mpr h).symm

mutual

/-- What evaluation looks at of an expression, of which it asks something. -/
def Expr.gist (asked : Inquiry) : Expr → Expr
  | ⟨form, type, _⟩ => ⟨form.gist, type.gist asked, none⟩

def Form.gist : Form → Form
  | .conjunction operands => .conjunction (gistAll .nothing operands)
  | .disjunction operands => .disjunction (gistAll .nothing operands)
  | .comparison style op left right =>
    .comparison style op (left.gist .nothing) (right.gist .nothing)
  | .call f args => .call f (gistAll .nothing args)
  | .step axis test predicates => .step axis test (gistAll .number predicates)
  | .path root steps => .path (root.gist .amount) (gistAll .amount steps)
  | .relativePath steps => .relativePath (gistAll .amount steps)
  | .map operands => .map (gistAll .nothing operands)
  | .filter root predicates => .filter (root.gist .nothing) (gistAll .number predicates)
  | .containsText input query => .containsText (input.gist .nothing) (query.gist .nothing)
  | .conditional condition yes no =>
    .conditional (condition.gist .nothing) (yes.gist .nothing) (no.gist .nothing)
  | .apply f args => .apply (f.gist .nothing) (gistAll .nothing args)
  | .check operand target promote => .check (operand.gist .nothing) target promote
  | .literal values => .literal values
  | .function f => .function f
  | .contextItem => .contextItem
  | .position w => .position w
  | .reference v => .reference v
  | .failure e => .failure e

def gistAll (asked : Inquiry) : List Expr → List Expr
  | [] => []
  | e :: es => e.gist asked :: gistAll asked es

end

/-! ### What stays as it is -/

section

variable {d : Dependency} {asked : Inquiry}

mutual

theorem Expr.dependsOn_gist : (e : Expr) → {asked : Inquiry} →
    (e.gist asked).dependsOn d = e.dependsOn d
  | ⟨form, _, _⟩, _ => form.dependsOn_gist

theorem Form.dependsOn_gist : (form : Form) → form.gist.dependsOn d = form.dependsOn d
  | .literal _ | .function _ | .contextItem | .position _ | .reference _ | .failure _ | .map [] =>
    rfl
  | .conjunction es | .disjunction es | .call _ es | .step _ _ es | .relativePath es => by
    simp only [Form.gist, Form.dependsOn, anyDependsOn_gist es]
  | .comparison _ _ a b | .containsText a b => by
    simp only [Form.gist, Form.dependsOn, a.dependsOn_gist, b.dependsOn_gist]
  | .path e es | .filter e es | .apply e es => by
    simp only [Form.gist, Form.dependsOn, e.dependsOn_gist, anyDependsOn_gist es]
  | .map (e :: es) => by
    simp only [Form.gist, gistAll, Form.dependsOn, e.dependsOn_gist, anyDependsOn_gist es]
  | .conditional a b c => by
    simp only [Form.gist, Form.dependsOn, a.dependsOn_gist, b.dependsOn_gist, c.dependsOn_gist]
  | .check e _ _ => by simp only [Form.gist, Form.dependsOn, e.dependsOn_gist]

theorem anyDependsOn_gist : (es : List Expr) → {asked : Inquiry} →
    anyDependsOn d (gistAll asked es) = anyDependsOn d es
  | [], _ => rfl
  | e :: es, _ => by simp only [gistAll, anyDependsOn, e.dependsOn_gist, anyDependsOn_gist es]

end

@[simp] theorem Expr.type_gist (e : Expr) : (e.gist asked).type = e.type.gist asked := by
  cases e
  rfl

theorem Expr.isPositional_gist (e : Expr) : (e.gist .number).isPositional = e.isPositional := by
  rw [isPositional, isPositional, type_gist, StaticType.mayBeNumber_gist, dependsOn_gist]

theorem Expr.window?_gist (e : Expr) : (e.gist asked).window? = e.window? := by
  obtain ⟨form, τ, l⟩ := e
  cases form <;> rfl

theorem gistAll_eq_map (es : List Expr) : gistAll asked es = es.map (Expr.gist asked) := by
  induction es with
  | nil => rfl
  | cons e es ih => rw [gistAll, ih, List.map_cons]

theorem gistAll_nothing_eq : {es fs : List Expr} → gistAll .amount es = gistAll .amount fs →
    gistAll .nothing es = gistAll .nothing fs
  | [], [], _ => rfl
  | [], ⟨_, _, _⟩ :: _, h => by cases h
  | ⟨_, _, _⟩ :: _, [], h => by cases h
  | ⟨form, τ, l⟩ :: es, ⟨form', τ', l'⟩ :: fs, h => by
    simp only [gistAll, Expr.gist, List.cons.injEq, Expr.mk.injEq, and_true] at h
    rw [gistAll, gistAll, Expr.gist, Expr.gist, h.1.1, gistAll_nothing_eq h.2]
    rfl

theorem any_isPositional_gist (es : List Expr) :
    (gistAll .number es).any Expr.isPositional = es.any Expr.isPositional := by
  rw [gistAll_eq_map, List.any_map]
  exact congrArg es.any (funext Expr.isPositional_gist)

theorem leadingWindow?_gist (es : List Expr) :
    leadingWindow? (gistAll .number es) = leadingWindow? es := by
  cases es with
  | nil => rfl
  | cons e es => simp only [gistAll, leadingWindow?, any_isPositional_gist, Expr.window?_gist]

end

open Logged (Alike)

/-! ### Evaluation -/

section

variable {call : Caller} (hplace : call.IgnoresPlace)

include hplace

/-- The place of a form shows in failures alone. -/
theorem Form.iterate_alike (form : Form) (env : Env) (l l' : Option Location) :
    (form.iterate call env l).Alike Cursor.Resembles (form.iterate call env l') := by
  obtain ⟨c, hc⟩ | ⟨f, hf⟩ := (form.iterate call env l).gives_or_fails
  · obtain ⟨c', hc', h⟩ := Form.iterate_place hplace l l' hc
    exact .gives hc hc' h
  · obtain ⟨c, hc⟩ | ⟨g, hg⟩ := (form.iterate call env l').gives_or_fails
    · obtain ⟨c', hc', -⟩ := Form.iterate_place hplace l' l hc
      cases hf.symm.trans hc'
    · exact .fails hf hg trivial

omit hplace in
theorem checkSequence_alike {forest : Forest} {target : SeqType} {promote : Bool}
    (l l' : Option Location) (items : List Item) :
    (checkSequence forest target promote l items).Alike Eq
      (checkSequence forest target promote l' items) :=
  .of_gives_iff fun _ => ⟨checkSequence_place l l', checkSequence_place l' l⟩

/-! By recursion on the expression. Where an operand has a focus of its own, that focus is any. -/

omit hplace

mutual

theorem Expr.iterate_gist (hplace : call.IgnoresPlace) :
    (e : Expr) → (env : Env) → {asked : Inquiry} →
    ((e.gist asked).iterate call env).Alike Cursor.Resembles (e.iterate call env)
  | ⟨form, _, l⟩, env, _ => (Form.iterate_gist hplace form env none l).locate none l

theorem Expr.value_gist (hplace : call.IgnoresPlace) :
    (e : Expr) → (env : Env) → {asked : Inquiry} →
    ((e.gist asked).value call env).Alike Eq (e.value call env)
  | ⟨form, τ, l⟩, env, _ => by
    have h := (Form.iterate_gist hplace form env none l).locate none l
    cases form with
    | check operand target promote =>
      simp only [Expr.gist, Form.gist, Expr.value]
      exact (Expr.value_gist hplace operand env).bind_eq fun items =>
        checkSequence_alike none l items
    | _ =>
      rw [Expr.gist, Expr.value_of_not_check, Expr.value_of_not_check]
      · exact h.bind fun c c' hc => hc.drain
      · nofun
      · simp [Form.gist]

theorem Expr.truth_gist (hplace : call.IgnoresPlace) :
    (e : Expr) → (env : Env) → {asked : Inquiry} →
    ((e.gist asked).truth call env).Alike Eq (e.truth call env)
  | ⟨form, τ, l⟩, env, _ => by
    rw [Expr.gist, Expr.truth, Expr.truth]
    exact ((Form.iterate_gist hplace form env none l).locate none l).bind
      fun c c' hc => hc.truth none l

theorem Expr.test_gist (hplace : call.IgnoresPlace) : (e : Expr) → (env : Env) → {asked : Inquiry} →
    ((e.gist asked).test call env).Alike Eq (e.test call env)
  | ⟨form, τ, l⟩, env, _ => by
    have h := (Form.iterate_gist hplace form env none l).locate none l
    cases form with
    | position w => exact .refl (fun _ => rfl) _
    | containsText input query =>
      simp only [Expr.gist, Form.gist, Expr.test]
      exact ((Env.search_alike (Expr.value_gist hplace query env)
          (Expr.iterate_gist hplace input env)).locate none l).bind_eq fun m =>
        .refl (fun _ => rfl) _
    | _ =>
      rw [Expr.gist, Expr.test_of_other, Expr.test_of_other]
      · exact h.bind fun c c' hc => (hc.predicateTruth none l env.focus.position).bind_eq fun b =>
          .refl (fun _ => rfl) _
      · nofun
      · nofun
      · simp [Form.gist]
      · simp [Form.gist]

theorem Form.iterate_gist (hplace : call.IgnoresPlace) :
    (form : Form) → (env : Env) → (l l' : Option Location) →
    (form.gist.iterate call env l).Alike Cursor.Resembles (form.iterate call env l')
  | .literal vs, env, l, l' => Form.iterate_alike hplace (.literal vs) env l l'
  | .function f, env, l, l' => Form.iterate_alike hplace (.function f) env l l'
  | .contextItem, env, l, l' => Form.iterate_alike hplace .contextItem env l l'
  | .position w, env, l, l' => Form.iterate_alike hplace (.position w) env l l'
  | .reference v, env, l, l' => Form.iterate_alike hplace (.reference v) env l l'
  | .failure e, env, l, l' => Form.iterate_alike hplace (.failure e) env l l'
  | .conjunction operands, env, _, _ => by
    simp only [Form.gist, Form.iterate]
    exact (allTrue_gist hplace operands env).map fun a b hab => hab ▸ .refl _
  | .disjunction operands, env, _, _ => by
    simp only [Form.gist, Form.iterate]
    exact (anyTrue_gist hplace operands env).map fun a b hab => hab ▸ .refl _
  | .comparison style op left right, env, _, _ => by
    simp only [Form.gist, Form.iterate]
    refine (Expr.value_gist hplace left env).bind_eq fun _ =>
      .bind_eq (.refl (fun _ => rfl) _) fun _ => ?_
    exact (Expr.value_gist hplace right env).bind_eq fun _ => .refl Cursor.Resembles.refl _
  | .call f args, env, _, _ => by
    simp only [Form.gist, Form.iterate]
    exact callBuiltin_gist hplace f args env
  | .step axis test predicates, env, _, _ => by
    simp only [Form.gist, Form.iterate]
    refine .bind_eq (.refl (fun _ => rfl) _) fun item => ?_
    split
    · refine (Cursor.Resembles.filterBy (by simp [gistAll_eq_map])
        (any_isPositional_gist predicates)
        (leadingWindow?_gist predicates)
        (fun env => by
          rw [show (gistAll .number predicates).length = predicates.length by simp [gistAll_eq_map]]
          exact meanTest_gist hplace predicates env _ _)
        (fun items => filterInTurn_gist hplace predicates env items)
        (.refl _)).bind fun c c' hc => ?_
      split
      · exact hc.drainScored.bind_eq fun _ => .refl Cursor.Resembles.refl _
      · exact .pure hc
    · exact .refl Cursor.Resembles.refl _
  | .path root steps, env, _, _ => by
    simp only [Form.gist, Form.iterate, Expr.type_gist, StaticType.atMostOne_gist]
    exact (Expr.iterate_gist hplace root env).bind fun c c' hc =>
      followSteps_gist hplace steps env hc _
  | .relativePath steps, env, _, _ => by
    simp only [Form.gist, Form.iterate]
    exact .bind_eq (.refl (fun _ => rfl) _) fun item =>
      followSteps_gist hplace steps env (.refl _) _
  | .map [], _, _, _ => by
    simp only [Form.gist, gistAll, Form.iterate]
    exact .refl Cursor.Resembles.refl _
  | .map (first :: rest), env, _, _ => by
    simp only [Form.gist, gistAll, Form.iterate]
    exact (Expr.iterate_gist hplace first env).bind fun c c' hc =>
      followMaps_gist hplace rest env hc
  | .filter root predicates, env, _, _ => by
    simp only [Form.gist, Form.iterate]
    refine (Expr.iterate_gist hplace root env).bind fun c c' hc => ?_
    exact hc.filterBy (by simp [gistAll_eq_map]) (any_isPositional_gist predicates)
      (leadingWindow?_gist predicates)
      (fun env => by
        rw [show (gistAll .number predicates).length = predicates.length by simp [gistAll_eq_map]]
        exact meanTest_gist hplace predicates env _ _)
      (fun items => filterInTurn_gist hplace predicates env items)
  | .containsText input query, env, _, _ => by
    simp only [Form.gist, Form.iterate]
    exact (Env.search_alike (Expr.value_gist hplace query env)
        (Expr.iterate_gist hplace input env)).bind_eq fun m =>
      .refl Cursor.Resembles.refl _
  | .conditional condition yes no, env, _, _ => by
    simp only [Form.gist, Form.iterate]
    refine (Expr.truth_gist hplace condition env).bind_eq fun b => ?_
    split
    · exact Expr.iterate_gist hplace yes env
    · exact Expr.iterate_gist hplace no env
  | .apply f args, env, l, l' => by
    simp only [Form.gist, Form.iterate]
    refine (Expr.value_gist hplace f env).bind_eq fun items => ?_
    split
    · refine (valuesOf_gist hplace args env).bind_eq fun values =>
        .map (S := Cursor.Resembles) (R := Eq) ?_ fun a b hab => hab ▸ .refl _
      exact .of_gives_iff fun _ => ⟨hplace _ _ _ _ _ _, hplace _ _ _ _ _ _⟩
    · exact .refl Cursor.Resembles.refl _
  | .check operand target promote, env, l, l' => by
    simp only [Form.gist, Form.iterate]
    exact (Expr.iterate_gist hplace operand env).bind fun c c' hc =>
      .pure ((hc.check _ _ 0).trans (c'.check_place l l'))

theorem callBuiltin_gist (hplace : call.IgnoresPlace) (f : Builtin) :
    (args : List Expr) → (env : Env) →
    (callBuiltin call env f (gistAll .nothing args)).Alike Cursor.Resembles
      (callBuiltin call env f args)
  | [], env => .refl Cursor.Resembles.refl _
  | arg :: args, env => by
    rw [gistAll]
    cases f with
    | position | last => exact .refl Cursor.Resembles.refl _
    | boolean => exact (Expr.truth_gist hplace arg env).map fun a b hab => hab ▸ .refl _
    | not => exact (Expr.truth_gist hplace arg env).bind_eq fun b => .refl Cursor.Resembles.refl _
    | «exists» =>
      exact (Expr.iterate_gist hplace arg env).bind fun c c' hc =>
          (hc.first? env.scoring).bind fun a b hab =>
        .pure (hab ▸ .refl _)
    | empty =>
      refine (Expr.iterate_gist hplace arg env).bind fun c c' hc =>
        (hc.first? env.scoring).bind fun a b hab => .pure ?_
      rw [← Option.not_isSome, ← Option.not_isSome, hab]
      exact .refl _
    | count => exact (Expr.iterate_gist hplace arg env).bind fun c c' hc =>
      hc.count.bind_eq fun n => .refl Cursor.Resembles.refl _
    | trace =>
      simp only [callBuiltin]
      exact (Expr.value_gist hplace arg env).bind_eq fun items =>
          (labelOf_gist hplace args env).bind_eq fun label =>
        .refl Cursor.Resembles.refl _

theorem labelOf_gist (hplace : call.IgnoresPlace) : (es : List Expr) → (env : Env) →
    (labelOf call env (gistAll .nothing es)).Alike Eq (labelOf call env es)
  | [], _ => .refl (fun _ => rfl) _
  | e :: _, env => (Expr.value_gist hplace e env).bind_eq fun _ => .refl (fun _ => rfl) _

theorem allTrue_gist (hplace : call.IgnoresPlace) :
    (es : List Expr) → (env : Env) →
    (allTrue call env (gistAll .nothing es)).Alike Eq (allTrue call env es)
  | [], _ => .refl (fun _ => rfl) _
  | e :: es, env => by
    simp only [gistAll, allTrue]
    refine (Expr.truth_gist hplace e env).bind_eq fun b => ?_
    split
    · exact allTrue_gist hplace es env
    · exact .refl (fun _ => rfl) _

theorem anyTrue_gist (hplace : call.IgnoresPlace) :
    (es : List Expr) → (env : Env) →
    (anyTrue call env (gistAll .nothing es)).Alike Eq (anyTrue call env es)
  | [], _ => .refl (fun _ => rfl) _
  | e :: es, env => by
    simp only [gistAll, anyTrue]
    refine (Expr.truth_gist hplace e env).bind_eq fun b => ?_
    split
    · exact .refl (fun _ => rfl) _
    · exact anyTrue_gist hplace es env

theorem valuesOf_gist (hplace : call.IgnoresPlace) : (es : List Expr) → (env : Env) →
    (valuesOf call env (gistAll .nothing es)).Alike Eq (valuesOf call env es)
  | [], _ => .refl (fun _ => rfl) _
  | e :: es, env =>
    (Expr.value_gist hplace e env).bind_eq fun _ => (valuesOf_gist hplace es env).bind_eq fun _ =>
      .refl (fun _ => rfl) _

theorem followSteps_gist (hplace : call.IgnoresPlace) :
    (steps : List Expr) → (env : Env) → {c c' : Cursor} → c.Resembles c' → (atMostOne : Bool) →
    (followSteps call env c atMostOne (gistAll .amount steps)).Alike Cursor.Resembles
      (followSteps call env c' atMostOne steps)
  | [], _, _, _, h, _ => .pure h
  | step :: steps, env, c, c', h, atMostOne => by
    simp only [gistAll, followSteps, Expr.type_gist, StaticType.atMostOne_gist]
    refine (h.follow (fun _ _ _ _ => Expr.iterate_gist hplace step _) step.dependsOn_gist).bind
      fun d d' hd => ?_
    split
    · exact followSteps_gist hplace steps env hd _
    · refine hd.drain.bind_eq fun items => .bind_eq (.refl (fun _ => rfl) _) fun ordered => ?_
      exact followSteps_gist hplace steps env (.refl _) false

theorem followMaps_gist (hplace : call.IgnoresPlace) :
    (operands : List Expr) → (env : Env) → {c c' : Cursor} → c.Resembles c' →
    (followMaps call env c (gistAll .nothing operands)).Alike Cursor.Resembles
      (followMaps call env c' operands)
  | [], _, _, _, h => .pure h
  | operand :: operands, env, c, c', h => by
    simp only [gistAll, followMaps]
    exact (h.follow (fun _ _ _ _ => Expr.iterate_gist hplace operand _) operand.dependsOn_gist).bind
        fun d d' hd =>
      followMaps_gist hplace operands env hd

theorem meanTest_gist (hplace : call.IgnoresPlace) :
    (es : List Expr) → (env : Env) → (count : Nat) → (total : Number) →
    (meanTest call env count total (gistAll .number es)).Alike Eq (meanTest call env count total es)
  | [], _, _, _ => .refl (fun _ => rfl) _
  | e :: es, env, count, total => by
    simp only [gistAll, meanTest]
    refine (Expr.test_gist hplace e env).bind_eq fun verdict => ?_
    split
    · exact meanTest_gist hplace es env count _
    · exact .refl (fun _ => rfl) _

theorem filterInTurn_gist (hplace : call.IgnoresPlace) :
    (es : List Expr) → (env : Env) → (items : List (Item × Number)) →
    (filterInTurn call env items (gistAll .number es)).Alike Eq (filterInTurn call env items es)
  | [], _, _ => .refl (fun _ => rfl) _
  | e :: es, env, items => by
    simp only [gistAll, filterInTurn]
    exact (keepScored_alike (fun _ _ => Expr.test_gist hplace e _) items 0).bind_eq fun kept =>
      filterInTurn_gist hplace es env kept

end

include hplace

/-- Expressions with one gist are evaluated to cursors that resemble each other. -/
theorem Expr.iterate_of_gist_eq {e e' : Expr} (h : e.form.gist = e'.form.gist) (env : Env) :
    (e.iterate call env).Alike Cursor.Resembles (e'.iterate call env) := by
  obtain ⟨form, τ, l⟩ := e
  obtain ⟨form', τ', l'⟩ := e'
  obtain h : form.gist = form'.gist := h
  have hform := (Form.iterate_gist hplace form env none l).symm.trans
    (h ▸ Form.iterate_gist hplace form' env none l')
  rw [iterate, iterate]
  refine (hform.imp ?_).locate l l'
  rintro c d ⟨c', hc, hd⟩
  exact hc.symm.trans hd

end

end TreeQuery
