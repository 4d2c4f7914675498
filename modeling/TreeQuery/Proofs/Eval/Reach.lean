import Mathlib.Logic.Relation
import TreeQuery.Query
import TreeQuery.Proofs.Cursor.Items
import TreeQuery.Proofs.Eval.Promise
/-!
# Where evaluation gets

A `Point` is an expression in an environment, with the depth of calls that is left. Evaluation
begins at the compiled query (`Query.start`) and goes from a point to those that it `Enters`:
operands, in the same focus or in one on each item of another operand, and the bodies of functions
that are called (`Point.Calls`). Only a call takes from the depth, so the points in the body of one
call are those of its depth, and all of them see the bindings of that call
(`Point.Reaches.locals_eq`).
-/

namespace TreeQuery

/-- An expression, the environment it is evaluated in, and how many calls may be nested there. -/
structure Point where
  depth : Nat
  env : Env
  expr : Expr

/-- The point at which the evaluation of a query begins. -/
def Query.start (q : Query) (c : Context) : Point := ⟨c.callDepth, .ofContext c, q.expr⟩

/-- The operands that are evaluated in the focus of the form itself. -/
def Form.operands : Form → List Expr
  | .conjunction es | .disjunction es | .call _ es => es
  | .comparison _ _ a b | .containsText a b => [a, b]
  | .path root _ | .filter root _ | .map (root :: _) => [root]
  | .conditional a b c => [a, b, c]
  | .apply f args => f :: args
  | .check e _ _ => [e]
  | _ => []

/-- Whether a call of a function evaluates a body, and in which environment. -/
inductive FunctionItem.Opens (env : Env) (l : Option Location) :
    FunctionItem → List (List Item) → Env → Expr → Prop
  | inline {name : Option ExpandedName} {signature : Signature} {params : List Variable}
      {body : Expr} {args : List (List Item)} {locals : Bindings} : args.length = signature.arity →
      (env.bindParams l params args).Gives locals →
      Opens env l (.inline name signature params body) args (env.enter locals) body
  | coerced {name : Option ExpandedName} {signature : Signature} {f : FunctionItem}
    {args checked : List (List Item)}
      {env' : Env} {body : Expr} : (checkArguments env l args signature.params).Gives checked →
      Opens env l f checked env' body → Opens env l (.coerced name signature f) args env' body

namespace Point

/-- Whether evaluation at a point may go on to another one. -/
inductive Enters : Point → Point → Prop
  | operand {d : Nat} {env : Env} {form : Form} {τ : StaticType} {l : Option Location} {e : Expr} :
    e ∈ form.operands →
      Enters ⟨d, env, form, τ, l⟩ ⟨d, env, e⟩
  /-- A predicate, for an item that the filter's input delivers. -/
  | filter {d : Nat} {env : Env} {root : Expr} {predicates : List Expr} {τ : StaticType}
    {l : Option Location} {c : Cursor}
      {scoring scoring' : Bool} {item : Item} {e : Expr} {size : Option Nat} {position : Nat} :
      (root.iterate (callWithin d) env).Gives c → item ∈ delivered (c.deliveries scoring) →
        e ∈ predicates →
      Enters ⟨d, env, .filter root predicates, τ, l⟩ ⟨d, env.focusOn size scoring' position item, e⟩
  /-- A predicate, for a node of the step. -/
  | step {d : Nat} {env : Env} {axis : Axis} {test : NodeTest} {predicates : List Expr}
    {τ : StaticType}
      {l : Option Location} {n m : NodeId} {scoring : Bool} {e : Expr} {size : Option Nat}
        {position : Nat} :
      env.focus.item = some (.node n) → m ∈ env.forest.axisNodes n axis →
        test.passes env.forest m = true → e ∈ predicates →
      Enters ⟨d, env, .step axis test predicates, τ, l⟩
        ⟨d, env.focusOn size scoring position (.node m), e⟩
  /-- A step of a path, for an item that the steps before it lead to. -/
  | path {d : Nat} {env : Env} {root e : Expr} {before later : List Expr} {τ : StaticType}
    {l : Option Location}
      {start c : Cursor} {scoring scoring' : Bool} {item : Item} {size : Option Nat}
        {position : Nat} :
      (root.iterate (callWithin d) env).Gives start →
      (followSteps (callWithin d) env start root.type.atMostOne before).Gives c →
        item ∈ delivered (c.deliveries scoring) →
      Enters ⟨d, env, .path root (before ++ e :: later), τ, l⟩
        ⟨d, env.focusOn size scoring' position item, e⟩
  | relativePath {d : Nat} {env : Env} {e : Expr} {before later : List Expr} {τ : StaticType}
    {l : Option Location}
      {start item : Item} {c : Cursor} {scoring scoring' : Bool} {size : Option Nat}
        {position : Nat} :
      env.focus.item = some start →
        (followSteps (callWithin d) env (.single start) true before).Gives c →
      item ∈ delivered (c.deliveries scoring) →
      Enters ⟨d, env, .relativePath (before ++ e :: later), τ, l⟩
        ⟨d, env.focusOn size scoring' position item, e⟩
  /-- An operand of a map, for an item that the operands before it lead to. -/
  | map {d : Nat} {env : Env} {first e : Expr} {before later : List Expr} {τ : StaticType}
    {l : Option Location}
      {start c : Cursor} {scoring scoring' : Bool} {item : Item} {size : Option Nat}
        {position : Nat} :
      (first.iterate (callWithin d) env).Gives start →
      (followMaps (callWithin d) env start before).Gives c →
      item ∈ delivered (c.deliveries scoring) →
      Enters ⟨d, env, .map (first :: before ++ e :: later), τ, l⟩
        ⟨d, env.focusOn size scoring' position item, e⟩
  /-- The body of a function that is called. -/
  | body {d : Nat} {env env' : Env}
    {function body : Expr} {args : List Expr} {τ : StaticType} {l : Option Location}
      {f : FunctionItem} {values : List (List Item)} :
        (function.value (callWithin (d + 1)) env).Gives [.function f] →
      (valuesOf (callWithin (d + 1)) env args).Gives values → f.Opens env l values env' body →
      Enters ⟨d + 1, env, .apply function args, τ, l⟩ ⟨d, env', body⟩

/-- Whether evaluation at a point may get to another one. -/
def Reaches : Point → Point → Prop := Relation.ReflTransGen Enters

/-- Whether evaluation at a point ends with a value: the whole one, or what the cursor delivers with
scores or without. -/
def EndsWith (p : Point) (items : List Item) : Prop :=
  (p.expr.value (callWithin p.depth) p.env).Gives items ∨
    ∃ c scoring, (p.expr.iterate (callWithin p.depth) p.env).Gives c ∧ (c.drain scoring).Gives items

theorem Enters.forest_eq {p q : Point} (h : p.Enters q) : q.env.forest = p.env.forest := by
  cases h with
  | body _ _ hopens =>
    clear * - hopens
    induction hopens with
    | inline => rfl
    | coerced _ _ ih => exact ih
  | _ => rfl

theorem Reaches.forest_eq {p q : Point} (h : p.Reaches q) : q.env.forest = p.env.forest := by
  induction h with
  | refl => rfl
  | tail _ hstep ih => exact hstep.forest_eq.trans ih

/-! ### Calls -/

/-- Whether evaluation at a point calls a function on arguments, and the point where it goes on in a
body. -/
inductive Calls : Point → FunctionItem → List (List Item) → Point → Prop
  | intro {d : Nat} {env env' : Env} {function body : Expr} {args : List Expr} {τ : StaticType}
      {l : Option Location} {f : FunctionItem} {values : List (List Item)} :
      (function.value (callWithin (d + 1)) env).Gives [.function f] →
      (valuesOf (callWithin (d + 1)) env args).Gives values → f.Opens env l values env' body →
      Calls ⟨d + 1, env, .apply function args, τ, l⟩ f values ⟨d, env', body⟩

variable {p q : Point} {f : FunctionItem} {values : List (List Item)}

theorem Calls.opens (h : p.Calls f values q) :
    f.Opens p.env p.expr.location values q.env q.expr := by
  cases h with
  | intro _ _ hopens => exact hopens

theorem Enters.depth_le (h : p.Enters q) : q.depth ≤ p.depth := by
  cases h with
  | body => exact Nat.le_succ _
  | _ => exact Nat.le_refl _

theorem Reaches.depth_le (h : p.Reaches q) : q.depth ≤ p.depth := by
  induction h with
  | refl => exact Nat.le_refl _
  | tail _ hstep ih => exact Nat.le_trans hstep.depth_le ih

theorem Enters.locals_eq (h : p.Enters q) (hdepth : q.depth = p.depth) :
    q.env.locals = p.env.locals := by
  cases h with
  | body => exact absurd hdepth (Nat.ne_of_lt (Nat.lt_succ_self _))
  | _ => rfl

/-- In the body of one call the bindings stay those of that call. -/
theorem Reaches.locals_eq (h : p.Reaches q) (hdepth : q.depth = p.depth) :
    q.env.locals = p.env.locals := by
  induction h with
  | refl => rfl
  | tail hreach hstep ih =>
    have hbefore := Nat.le_antisymm (Reaches.depth_le hreach) (hdepth ▸ hstep.depth_le)
    exact (hstep.locals_eq (hdepth.trans hbefore.symm)).trans (ih hbefore)

end Point

def FunctionItem.results (forest : Forest) (l : Option Location) :
    FunctionItem → List Item → Run (List Item)
  | .inline _ _ _ _, items => return items
  | .coerced _ signature inner, items => do
    let items ← inner.results forest l items
    checkSequence forest signature.result true l items

theorem FunctionItem.callWith_gives {body : Env → Expr → Run (List Item)} {env : Env}
    {l : Option Location} {items : List Item} : (f : FunctionItem) → {args : List (List Item)} →
    (f.callWith body env args l).Gives items →
      ∃ env' e result, f.Opens env l args env' e ∧ (body env' e).Gives result ∧
        (f.results env.forest l result).Gives items
  | .inline name s params e, args, h => by
    simp only [callWith, Logged.gives_ite, Logged.gives_locate, Logged.gives_failWith,
      Logged.gives_bind, and_false, false_or, Decidable.not_not] at h
    obtain ⟨harity, locals, hlocals, hbody⟩ := h
    exact ⟨_, e, items, .inline harity hlocals, hbody, Logged.gives_pure.mpr rfl⟩
  | .coerced name s inner, args, h => by
    simp only [callWith, Logged.gives_ite, Logged.gives_locate, Logged.gives_failWith,
      Logged.gives_bind, and_false, false_or] at h
    obtain ⟨-, checked, hchecked, converted, hinner, hitems⟩ := h
    obtain ⟨env', e, result, hopens, hbody, hresults⟩ := inner.callWith_gives hinner
    refine ⟨env', e, result, .coerced hchecked hopens, hbody, ?_⟩
    exact Logged.gives_bind.mpr ⟨converted, hresults, hitems⟩

/-- Where a call ends with a value, it is made of the value of a body that evaluation goes on in. -/
theorem Point.EndsWith.calls {p : Point} {items : List Item} (h : p.EndsWith items)
    {function : Expr} {args : List Expr} (hform : p.expr.form = .apply function args) :
    ∃ f values q result, p.Calls f values q ∧ q.EndsWith result ∧
      (f.results p.env.forest p.expr.location result).Gives items := by
  obtain ⟨d, env, form, τ, l⟩ := p
  obtain rfl : form = .apply function args := hform
  have hcursor :
    ∃ c scoring, (Expr.iterate (callWithin d) env ⟨.apply function args, τ, l⟩).Gives c ∧
      (c.drain scoring).Gives items := by
    rcases h with h | h
    · dsimp only at h
      rw [Expr.value_of_not_check (by simp), Logged.gives_bind] at h
      obtain ⟨c, hc, hitems⟩ := h
      exact ⟨c, env.scoring, by rwa [Expr.iterate], hitems⟩
    · exact h
  obtain ⟨c, scoring, hc, hitems⟩ := hcursor
  simp only [Expr.iterate, Form.iterate, Logged.gives_locate, Logged.gives_bind] at hc
  obtain ⟨called, hcalled, hc⟩ := hc
  split at hc
  · next f =>
    simp only [Logged.gives_bind, Logged.gives_map] at hc
    obtain ⟨values, hvalues, value, hvalue, rfl⟩ := hc
    obtain rfl : value = items := by simpa using (Cursor.drain_delivered hitems).1
    cases d with
    | zero => exact absurd hvalue Logged.gives_fail
    | succ d =>
      obtain ⟨env', body, result, hopens, hbody, hresults⟩ := f.callWith_gives hvalue
      exact ⟨f, values, ⟨d, env', body⟩, result, .intro hcalled hvalues hopens,
        .inl hbody, hresults⟩
  · exact absurd hc Logged.gives_failWith

/-! ### What keeps a promise -/

theorem Form.Satisfies.operands {α : Type} {D : Demand α} {a : α} {form : Form}
    (h : form.Satisfies D a) {e : Expr} (he : e ∈ form.operands) : e.Satisfies D a := by
  cases form
  case conjunction | disjunction | call =>
    exact allSatisfy_iff.mp h e he
  case comparison | containsText =>
    simp only [Form.operands, List.mem_cons, List.not_mem_nil, or_false] at he
    rcases he with rfl | rfl
    · exact h.1
    · exact h.2
  case path | filter =>
    simp only [Form.operands, List.mem_singleton] at he
    exact he ▸ h.1
  case map operands =>
    cases operands with
    | nil => simp [Form.operands] at he
    | cons first rest =>
      simp only [Form.operands, List.mem_singleton] at he
      exact he ▸ h.1
  case conditional =>
    simp only [Form.operands, List.mem_cons, List.not_mem_nil, or_false] at he
    rcases he with rfl | rfl | rfl
    · exact h.1
    · exact h.2.1
    · exact h.2.2
  case apply =>
    simp only [Form.operands, List.mem_cons] at he
    rcases he with rfl | he
    · exact h.1
    · exact allSatisfy_iff.mp h.2 e he
  case check =>
    simp only [Form.operands, List.mem_singleton] at he
    exact he ▸ h
  all_goals simp [Form.operands] at he

mutual

theorem Cursor.Keeps.delivered {P : Promise} {scoring : Bool} : {c : Cursor} → c.Keeps P →
    ∀ item ∈ delivered (c.deliveries scoring), P.item item
  | .mk _ _, h => Reply.Keeps.delivered (h scoring)

theorem Reply.Keeps.delivered {P : Promise} {scoring : Bool} : {r : Reply} → r.Keeps P →
    ∀ item ∈ delivered (r.deliveries scoring), P.item item
  | .ended _ _, _ => by simp [Reply.deliveries]
  | .yielded _ (.error _) _ _, h => by
    rw [Reply.keeps_error] at h
    exact Cursor.Keeps.delivered h.2.2
  | .yielded _ (.ok _) _ _, h => by
    rw [Reply.keeps_ok] at h
    exact List.forall_mem_cons.mpr ⟨h.2.1, Cursor.Keeps.delivered h.2.2⟩

end

end TreeQuery
