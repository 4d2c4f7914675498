import TreeQuery.Proofs.Cursor.Hint
import TreeQuery.Query
/-!
# Size hints of results

Most expressions have a cursor over items that are there already, or a concatenation, of which no
bounds are told. Hints of their operands are passed on by filters, conditionals and checks, and by
paths and maps that take no step. So every hint on the way through a result is right for the items
to come; failures come on top where an item is checked or a window opened (`Query.hints_hold`,
`Query.hints_miss_failure`), unless the expression `countsFailures`.
-/

namespace TreeQuery

/-- Whether all items are there before the first pull. -/
def Form.isHeld : Form → Bool
  | .literal _ | .function _ | .contextItem | .position _ | .conjunction _ | .disjunction _ | .comparison .. | .call ..
  | .containsText .. | .reference _ | .apply .. => true
  | _ => false

mutual

/-- Whether the size hint of the expression's cursor counts failures as it counts items. -/
def Expr.countsFailures : Expr → Bool
  | ⟨form, _, _⟩ => form.countsFailures

def Form.countsFailures : Form → Bool
  | .path root [] => root.countsFailures
  | .map [operand] => operand.countsFailures
  | .filter ⟨form, _, _⟩ predicates =>
    form.countsFailures && ((leadingWindow? predicates).isNone || form.isHeld)
  | .conditional _ yes no => yes.countsFailures && no.countsFailures
  | .check .. => false
  | _ => true

end

variable {call : Caller} {env : Env} {scoring failures : Bool} {c c' : Cursor}

/-! ### Items that are there already -/

theorem callBuiltin_held {f : Builtin} {args : List Expr}
    (h : (callBuiltin call env f args).Gives c) : ∃ items, c = .ofList items := by
  have counted {x : Run Nat} (h : (Cursor.ofNat <$> x).Gives c) : ∃ items, c = .ofList items := by
    obtain ⟨n, -, rfl⟩ := Logged.gives_map.mp h
    exact ⟨_, rfl⟩
  have decided {x : Run Bool} (h : (Cursor.ofBool <$> x).Gives c) : ∃ items, c = .ofList items := by
    obtain ⟨b, -, rfl⟩ := Logged.gives_map.mp h
    exact ⟨_, rfl⟩
  cases args with
  | nil =>
    cases f with
    | position | last => exact counted h
    | _ => simp [callBuiltin] at h
  | cons arg args =>
    cases f with
    | position | last => exact counted h
    | boolean => exact decided h
    | not | «exists» | empty | count =>
      simp only [callBuiltin, Logged.gives_bind, Logged.gives_pure] at h
      obtain ⟨_, -, h⟩ := h
      first
        | exact ⟨_, h.symm⟩
        | obtain ⟨_, -, h⟩ := h
          exact ⟨_, h.symm⟩
    | trace =>
      simp only [callBuiltin, Logged.gives_bind, Logged.gives_pure] at h
      obtain ⟨items, -, label, -, _, -, rfl⟩ := h
      exact ⟨items, rfl⟩

theorem Form.iterate_held {form : Form} (hheld : form.isHeld = true) {l : Option Location}
    (h : (form.iterate call env l).Gives c) : ∃ items, c = .ofList items := by
  cases form with
  | literal values => exact ⟨_, (Logged.gives_pure.mp h).symm⟩
  | function f => exact ⟨_, (Logged.gives_pure.mp h).symm⟩
  | position w => exact ⟨_, (Logged.gives_pure.mp h).symm⟩
  | contextItem | conjunction | disjunction | reference =>
    simp only [Form.iterate, Logged.gives_map] at h
    obtain ⟨_, -, rfl⟩ := h
    exact ⟨_, rfl⟩
  | comparison style op left right =>
    simp only [Form.iterate, Logged.gives_bind, Logged.gives_map] at h
    obtain ⟨_, -, _, -, _, -, _, -, items, -, rfl⟩ := h
    exact ⟨items, rfl⟩
  | call f args => exact callBuiltin_held h
  | containsText input query =>
    simp only [Form.iterate, Logged.gives_bind, Logged.gives_pure] at h
    obtain ⟨_, -, rfl⟩ := h
    exact ⟨_, rfl⟩
  | apply f args =>
    simp only [Form.iterate, Logged.gives_bind] at h
    obtain ⟨items, -, h⟩ := h
    split at h
    · simp only [Logged.gives_bind, Logged.gives_map] at h
      obtain ⟨_, -, items, -, rfl⟩ := h
      exact ⟨items, rfl⟩
    · simp at h
  | _ => simp [isHeld] at hheld

/-! ### Operations -/

/-- A filter passes the hints of its input on, a window those for items or of an input without
failures. -/
theorem Cursor.HintsHold.filterBy {predicates : List Expr} {mean : Env → Run (Option Number)}
    {inTurn : List (Item × Number) → Run (List (Item × Number))} (hc : c.HintsHold scoring failures)
    (hwindow : failures = false ∨ leadingWindow? predicates = none ∨ Clean (c.deliveries scoring))
    (h : (c.filterBy env predicates mean inTurn).Gives c') : c'.HintsHold scoring failures := by
  unfold Cursor.filterBy at h
  dsimp only at h
  simp only [Logged.gives_ite, Logged.gives_pure] at h
  obtain ⟨-, rfl⟩ | ⟨-, ⟨-, rfl⟩ | ⟨-, h⟩⟩ := h
  · exact hc
  · exact hc.select 0
  · split at h
    · next w hw =>
      obtain rfl := Logged.gives_pure.mp h
      exact hc.window (hwindow.imp_right fun h => h.resolve_left (by simp [hw])) 0
    · simp only [Logged.gives_bind, Logged.gives_pure] at h
      obtain ⟨items, -, kept, -, rfl⟩ := h
      exact Cursor.hintsHold_ofScored _

theorem Cursor.follow_hintsHold {operand : Expr} {nodesOnly : Bool} {iterate : Env → Run Cursor}
    (h : (c.follow env operand nodesOnly iterate).Gives c') : c'.HintsHold scoring failures := by
  simp only [Cursor.follow, Logged.gives_ite, Logged.gives_bind, Logged.gives_pure] at h
  obtain ⟨-, items, -, rfl⟩ | ⟨-, rfl⟩ := h
  · exact Cursor.hintsHold_chain _ 0
  · exact Cursor.hintsHold_chain c 0

theorem followSteps_hintsHold {atMostOne : Bool} {steps : List Expr}
    (hc : steps = [] → c.HintsHold scoring failures)
    (h : (followSteps call env c atMostOne steps).Gives c') : c'.HintsHold scoring failures := by
  induction steps generalizing c atMostOne with
  | nil =>
    simp only [followSteps, Logged.gives_pure] at h
    exact h ▸ hc rfl
  | cons step steps ih =>
    simp only [followSteps, Logged.gives_bind, Logged.gives_ite] at h
    obtain ⟨d, hd, ⟨-, h⟩ | ⟨-, items, -, ordered, -, h⟩⟩ := h
    · exact ih (fun _ => Cursor.follow_hintsHold hd) h
    · exact ih (fun _ => Cursor.hintsHold_ofList ordered) h

theorem followMaps_hintsHold {operands : List Expr}
    (hc : operands = [] → c.HintsHold scoring failures)
    (h : (followMaps call env c operands).Gives c') : c'.HintsHold scoring failures := by
  induction operands generalizing c with
  | nil =>
    simp only [followMaps, Logged.gives_pure] at h
    exact h ▸ hc rfl
  | cons operand operands ih =>
    simp only [followMaps, Logged.gives_bind] at h
    obtain ⟨d, hd, h⟩ := h
    exact ih (fun _ => Cursor.follow_hintsHold hd) h

/-! ### Expressions -/

theorem Form.step_hintsHold {axis : Axis} {test : NodeTest} {predicates : List Expr}
    {l : Option Location} (h : ((Form.step axis test predicates).iterate call env l).Gives c) :
    c.HintsHold scoring failures := by
  simp only [Form.iterate, Logged.gives_bind] at h
  obtain ⟨item, -, h⟩ := h
  cases item with
  | atomic _ | function _ => simp at h
  | node n =>
    simp only [Logged.gives_bind, Logged.gives_ite, Logged.gives_pure] at h
    obtain ⟨kept, hkept, h⟩ := h
    obtain ⟨-, scored, -, rfl⟩ | ⟨-, rfl⟩ := h
    · exact Cursor.hintsHold_ofScored _
    · exact (Cursor.hintsHold_ofList _).filterBy (.inr (.inr (Cursor.clean_ofList _))) hkept

mutual

theorem Expr.iterate_hintsHold : {e : Expr} → failures = false ∨ e.countsFailures = true →
    {env : Env} → {c : Cursor} →
    (e.iterate call env).Gives c → c.HintsHold scoring failures
  | ⟨form, τ, l⟩, he, env, c, h => by
    simp only [Expr.iterate, Logged.gives_locate] at h
    exact Form.iterate_hintsHold he h

theorem Form.iterate_hintsHold :
    {form : Form} → failures = false ∨ form.countsFailures = true → {env : Env} →
    {l : Option Location} → {c : Cursor} → (form.iterate call env l).Gives c →
    c.HintsHold scoring failures
  | .literal _, _, env, l, c, h | .function _, _, env, l, c, h | .contextItem, _, env, l, c,
    h | .position _, _, env, l, c, h
  | .conjunction _, _, env, l, c, h | .disjunction _, _, env, l, c,
    h | .comparison .., _, env, l, c, h
  | .call .., _, env, l, c, h | .containsText .., _, env, l, c, h | .reference _, _, env, l, c, h
  | .apply .., _, env, l, c, h => by
    obtain ⟨items, rfl⟩ := Form.iterate_held rfl h
    exact Cursor.hintsHold_ofList items
  | .step .., _, env, l, c, h => Form.step_hintsHold h
  | .path root steps, he, env, l, c, h => by
    simp only [Form.iterate, Logged.gives_bind] at h
    obtain ⟨d, hd, h⟩ := h
    refine followSteps_hintsHold (fun hsteps => ?_) h
    rw [hsteps, Form.countsFailures] at he
    exact Expr.iterate_hintsHold (e := root) he hd
  | .relativePath steps, _, env, l, c, h => by
    simp only [Form.iterate, Logged.gives_bind] at h
    obtain ⟨item, -, h⟩ := h
    exact followSteps_hintsHold (fun _ => Cursor.hintsHold_ofList [item]) h
  | .map [], _, env, l, c, h => by simp [Form.iterate] at h
  | .map (first :: operands), he, env, l, c, h => by
    simp only [Form.iterate, Logged.gives_bind] at h
    obtain ⟨d, hd, h⟩ := h
    refine followMaps_hintsHold (fun hoperands => ?_) h
    rw [hoperands, Form.countsFailures] at he
    exact Expr.iterate_hintsHold (e := first) he hd
  | .filter ⟨form, τ, m⟩ predicates, he, env, l, c, h => by
    simp only [Form.iterate, Expr.iterate, Logged.gives_bind, Logged.gives_locate] at h
    simp only [Form.countsFailures, Bool.and_eq_true, Bool.or_eq_true,
      Option.isNone_iff_eq_none] at he
    obtain ⟨d, hd, h⟩ := h
    have hroot : d.HintsHold scoring failures := Form.iterate_hintsHold (he.imp_right And.left) hd
    refine hroot.filterBy (he.imp_right fun he => he.2.imp_right fun hheld => ?_) h
    obtain ⟨items, rfl⟩ := Form.iterate_held hheld hd
    exact Cursor.clean_ofList items
  | .conditional condition yes no, he, env, l, c, h => by
    simp only [Form.iterate, Logged.gives_bind, Logged.gives_ite] at h
    rw [Form.countsFailures, Bool.and_eq_true] at he
    obtain ⟨b, -, ⟨-, h⟩ | ⟨-, h⟩⟩ := h
    · exact Expr.iterate_hintsHold (he.imp_right And.left) h
    · exact Expr.iterate_hintsHold (he.imp_right And.right) h
  | .check operand target promote, he, env, l, c, h => by
    have hitems : failures = false := he.resolve_right (by simp [Form.countsFailures])
    simp only [Form.iterate, Logged.gives_bind, Logged.gives_pure] at h
    obtain ⟨d, hd, rfl⟩ := h
    have hoperand : d.HintsHold scoring failures :=
      Expr.iterate_hintsHold (e := operand) (.inl hitems) hd
    rw [hitems] at hoperand ⊢
    exact hoperand.check 0 fun _ _ => Nat.zero_le _
  | .failure e, _, env, l, c, h => by simp [Form.iterate] at h

end

/-! ### Results -/

/-- Size hints of results are right for items. Whatever the query, after any number of pulls there
is still to come at least as much as the lower bound says, and no more items than the upper bound
says; together with failures it is no more either if there are none left, or if the expression
counts them. -/
theorem Query.hints_hold {q : Query} {context : Context} (h : (q.stream context).Gives c)
    (n : Nat) : let rest := c.after context.scoring n
    rest.hint.lower ≤ (rest.deliveries context.scoring).length ∧
      ∀ u, rest.hint.upper = some u → (delivered (rest.deliveries context.scoring)).length ≤ u ∧
        (Clean (rest.deliveries context.scoring) ∨ q.expr.countsFailures = true →
          (rest.deliveries context.scoring).length ≤ u) := by
  intro rest
  have hitems : rest.hint.Bounds false (rest.deliveries context.scoring) :=
    ((Expr.iterate_hintsHold (.inl rfl) h).after n).bounds
  refine ⟨hitems.lower, fun u hu => ?_⟩
  have hdelivered : (delivered (rest.deliveries context.scoring)).length ≤ u :=
    counted_false _ ▸ hitems.upper u hu
  refine ⟨hdelivered, fun hall => ?_⟩
  rcases hall with hclean | hcounts
  · exact hclean.length_delivered ▸ hdelivered
  · have hall : rest.hint.Bounds true (rest.deliveries context.scoring) :=
      ((Expr.iterate_hintsHold (.inr hcounts) h).after n).bounds
    exact counted_true _ ▸ hall.upper u hu

/-- A window on the first two of three values: after one pull at most two more are hinted at, and
one comes. -/
theorem Query.hints_hold_first_two :
    let w : Window := ⟨1, 2, by decide, by decide, by decide⟩
    let e : Expr :=
      .of (.filter (.of (.literal [.integer 1, .integer 2, .integer 3])) [.of (.position w)])
    let context : Context := { forest := .empty false }
    ∃ c, (Query.stream ⟨e, []⟩ context).Gives c ∧ (c.after false 1).hint.upper = some 2 ∧
      ((c.after false 1).deliveries false).length = 1 ∧
      ((c.after false 1).deliveries false).length ≤ 2 := by
  intro w e context
  have bounds {c : Cursor} (h : (Query.stream ⟨e, []⟩ context).Gives c) := Query.hints_hold h 1
  refine ⟨_, rfl, ?_, ?_, ((bounds rfl).2 2 ?_).2 (.inr rfl)⟩ <;> decide +kernel

/-- Two values where at most one may be: one more is hinted at, and an item and a failure come. -/
theorem Query.hints_miss_failure :
    let v : Variable := { name := .plain "v" }
    let e : Expr := .of (.check (.of (.reference v)) (.optional (.atomic .integer)) false)
    let context : Context :=
      { forest := .empty false, globals := [(v.name, [.atomic (.integer 1), .atomic (.integer 2)])] }
    ∃ q c, compile { externals := [v] } e = .ok q ∧ (q.stream context).Gives c ∧
      c.hint.upper = some 1 ∧
      (c.deliveries context.scoring).length = 2 := by
  intro v e context
  exact ⟨_, _, rfl, rfl, rfl, rfl⟩

end TreeQuery
