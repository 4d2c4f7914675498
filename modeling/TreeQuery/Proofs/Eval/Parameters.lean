import TreeQuery.Proofs.Eval.Binding
import TreeQuery.Proofs.Eval.Reach
/-!
# What references to parameters read

A call hands each parameter a value: the argument, as a value of the declared type
(`FunctionItem.Hands`). Wherever evaluation gets in the body, a reference to the parameter reads
that value, whatever else is called from there before or after (`Point.ReadsArguments`).
`Query.evaluate_bound` is about all calls of a query, and says that no variable is ever without a
value. A body finds no parameter of another function around it, although the reference compiles
(`Query.evaluate_captured`).
-/

namespace TreeQuery

/-! ### Parameters and arguments -/

def Variable.Receives (v : Variable) (env : Env) (l : Option Location) (arg value : List Item) :
    Prop :=
  match v.declared with
  | some declared => (checkSequence env.forest declared v.promote l arg).Gives value
  | none => arg = value

section

variable {env : Env} {l : Option Location}

namespace Env

theorem bindParams_cons_iff {v : Variable} {vs : List Variable} {arg : List Item}
    {args : List (List Item)} {locals : Bindings} :
    (env.bindParams l (v :: vs) (arg :: args)).Gives locals ↔
      ∃ value rest, v.Receives env l arg value ∧ (env.bindParams l vs args).Gives rest ∧
        rest ++ [(v.name, value)] = locals := by
  rw [bindParams.eq_def]
  unfold Variable.Receives
  cases hdeclared : v.declared <;> simp [hdeclared]

theorem lookup_bindParams_none {name : ExpandedName} {params : List Variable}
    {args : List (List Item)} {locals : Bindings} (h : (env.bindParams l params args).Gives locals)
    (hname : ∀ v ∈ params, v.name ≠ name) : locals.lookup name = none := by
  induction params generalizing args locals with
  | nil =>
    rw [bindParams.eq_def] at h
    exact Logged.gives_pure.mp h ▸ rfl
  | cons v vs ih =>
    cases args with
    | nil =>
      rw [bindParams.eq_def] at h
      exact Logged.gives_pure.mp h ▸ rfl
    | cons arg args =>
      obtain ⟨value, rest, -, hrest, rfl⟩ := bindParams_cons_iff.mp h
      have hne : (name == v.name) = false :=
        beq_eq_false_iff_ne.mpr (hname v List.mem_cons_self).symm
      rw [List.lookup_append, ih hrest fun w hw =>
        hname w (List.mem_cons_of_mem _ hw), Option.none_or]
      simp [List.lookup_cons, hne]

theorem lookup_bindParams_some {v : Variable} {before after : List Variable} {arg : List Item}
    {args args' : List (List Item)} {locals : Bindings} (hlength : args.length = before.length)
    (h : (env.bindParams l (before ++ v :: after) (args ++ arg :: args')).Gives locals)
    (hlast : ∀ w ∈ after, w.name ≠ v.name) :
    ∃ value, v.Receives env l arg value ∧ locals.lookup v.name = some value := by
  induction before generalizing args locals with
  | nil =>
    obtain rfl := List.length_eq_zero_iff.mp hlength
    obtain ⟨value, rest, hvalue, hrest, rfl⟩ := bindParams_cons_iff.mp h
    refine ⟨value, hvalue, ?_⟩
    rw [List.lookup_append, lookup_bindParams_none hrest hlast]
    simp
  | cons w before ih =>
    cases args with
    | nil => simp at hlength
    | cons first args =>
      obtain ⟨_, rest, -, hrest, rfl⟩ := bindParams_cons_iff.mp h
      obtain ⟨value, hvalue, hlookup⟩ := ih (Nat.succ.inj hlength) hrest
      exact ⟨value, hvalue, by rw [List.lookup_append, hlookup, Option.some_or]⟩

end Env

theorem Variable.exists_last {name : ExpandedName} {params : List Variable}
    (h : name ∈ params.map Variable.name) :
    ∃ before v after, params = before ++ v :: after ∧ v.name = name ∧
    ∀ w ∈ after, w.name ≠ name := by
  induction params with
  | nil => simp at h
  | cons v vs ih =>
    by_cases hlater : name ∈ vs.map Variable.name
    · obtain ⟨before, w, after, rfl, hname, hlast⟩ := ih hlater
      exact ⟨v :: before, w, after, rfl, hname, hlast⟩
    · refine ⟨[], v, vs, rfl, ?_, fun w hw hname => hlater (List.mem_map.mpr ⟨w, hw, hname⟩)⟩
      rcases List.mem_cons.mp h with h | h
      · exact h.symm
      · exact absurd h hlater

def FunctionItem.parameters : FunctionItem → List Variable
  | .inline _ _ params _ => params
  | .coerced _ _ inner => inner.parameters

/-- What a call hands to the parameter of a name; of parameters with one name the last counts. -/
inductive FunctionItem.Hands (env : Env) (l : Option Location) :
    FunctionItem → List (List Item) → ExpandedName → List Item → Prop
  | inline {name : Option ExpandedName} {signature : Signature} {before after : List Variable}
      {v : Variable} {body : Expr} {args args' : List (List Item)} {arg value : List Item} :
      args.length = before.length → (∀ w ∈ after, w.name ≠ v.name) → v.Receives env l arg value →
      Hands env l (.inline name signature (before ++ v :: after) body)
        (args ++ arg :: args') v.name value
  | coerced {name : Option ExpandedName} {signature : Signature} {f : FunctionItem}
      {args checked : List (List Item)} {parameter : ExpandedName} {value : List Item} :
      (checkArguments env l args signature.params).Gives checked →
        f.Hands env l checked parameter value →
      Hands env l (.coerced name signature f) args parameter value

variable {supplied : ExpandedName → Prop}

theorem FunctionItem.Opens.hands {f : FunctionItem} {args : List (List Item)} {env' : Env}
    {body : Expr} (h : f.Opens env l args env' body) {a : Parameters}
    (hf : f.Satisfies (.bound supplied) a) {name : ExpandedName}
    (hname : name ∈ f.parameters.map Variable.name) :
    ∃ value, f.Hands env l args name value ∧ env'.locals.lookup name = some value := by
  induction h with
  | @inline _ _ params body args locals harity hlocals =>
    rw [FunctionItem.Satisfies] at hf
    obtain ⟨before, v, after, rfl, rfl, hlast⟩ := Variable.exists_last hname
    have hlt : before.length < args.length := by
      have hparams := hf.1
      simp only [Demand.bound, List.length_append, List.length_cons] at hparams
      rw [harity, Signature.arity, hparams]
      omega
    have hargs : args = args.take before.length ++ args[before.length] ::
        args.drop (before.length + 1) := by
      rw [List.getElem_cons_drop, List.take_append_drop]
    have htake : (args.take before.length).length = before.length :=
      List.length_take_of_le (Nat.le_of_lt hlt)
    rw [hargs] at hlocals ⊢
    obtain ⟨value, hvalue, hlookup⟩ := Env.lookup_bindParams_some htake hlocals hlast
    exact ⟨value, .inline htake hlast hvalue, hlookup⟩
  | coerced hchecked _ ih =>
    rw [FunctionItem.Satisfies] at hf
    obtain ⟨value, hhands, hlookup⟩ := ih hf hname
    exact ⟨value, .coerced hchecked hhands, hlookup⟩

theorem FunctionItem.Opens.bound {f : FunctionItem} {args : List (List Item)} {env' : Env}
    {body : Expr} (h : f.Opens env l args env' body) {own : List ExpandedName}
    (henv : env.Binds supplied own) {a : Parameters} (hf : f.Satisfies (.bound supplied) a)
    (hargs : ∀ arg ∈ args, (Promise.bound supplied).items arg) :
    ∃ a : Parameters, env'.Binds supplied a.own ∧ body.Satisfies (.bound supplied) a := by
  induction h with
  | @inline _ signature params body args locals harity hlocals =>
    rw [FunctionItem.Satisfies] at hf
    obtain ⟨hbound, hitems⟩ :=
      (Env.bindParams_keeps Promise.bound_lawful env l params args hargs).answer _ hlocals
    have hvalues : ∀ name ∈ (a.enter params).own, ∃ value, locals.lookup name = some value :=
      List.forall_mem_map.mpr (hbound (harity.trans hf.1))
    exact ⟨a.enter params, henv.enter hvalues hitems, hf.2⟩
  | coerced hchecked _ ih =>
    rw [FunctionItem.Satisfies] at hf
    exact ih hf ((checkArguments_keeps Promise.bound_lawful env l _ _ hargs).answer _ hchecked)

end

/-! ### Points of evaluation -/

namespace Point

variable {supplied : ExpandedName → Prop} {p q : Point}

def Bound (supplied : ExpandedName → Prop) (p : Point) : Prop :=
  ∃ a : Parameters, p.env.Binds supplied a.own ∧ p.expr.Satisfies (.bound supplied) a

theorem Enters.bound (h : p.Enters q) (hp : p.Bound supplied) : q.Bound supplied := by
  obtain ⟨a, henv, he⟩ := hp
  have hpolicy (d : Nat) : Policy (.bound supplied) (callWithin d) (.bound supplied) a
      (Env.Binds supplied a.own) :=
    policy_bound (callWithin_binds d) a
  cases h with
  | operand hoperand => exact ⟨a, henv, he.2.operands hoperand⟩
  | filter hroot hitem hpredicate =>
    have hc := (Expr.iterate_keeps (hpolicy _) _ henv he.2.1).answer _ hroot
    exact ⟨a, henv.focusOn (hc.delivered _ hitem) _ _ _, allSatisfy_iff.mp he.2.2 _ hpredicate⟩
  | step _ _ _ hpredicate =>
    exact ⟨a, henv.focusOn (Promise.bound_lawful.node _) _ _ _, allSatisfy_iff.mp he.2 _ hpredicate⟩
  | path hroot hbefore hitem =>
    obtain ⟨hearlier, hlater⟩ := allSatisfy_append.mp he.2.2
    have hstart := (Expr.iterate_keeps (hpolicy _) _ henv he.2.1).answer _ hroot
    have hc := (followSteps_keeps (hpolicy _) _ _ henv hearlier hstart).answer _ hbefore
    exact ⟨a, henv.focusOn (hc.delivered _ hitem) _ _ _, hlater.1⟩
  | relativePath hstart hbefore hitem =>
    obtain ⟨hearlier, hlater⟩ := allSatisfy_append.mp he.2
    have hstart := Cursor.keeps_single (henv.focus _ hstart)
    have hc := (followSteps_keeps (hpolicy _) _ _ henv hearlier hstart).answer _ hbefore
    exact ⟨a, henv.focusOn (hc.delivered _ hitem) _ _ _, hlater.1⟩
  | map hfirst hbefore hitem =>
    obtain ⟨hearlier, hlater⟩ := allSatisfy_append.mp he.2.2
    have hstart := (Expr.iterate_keeps (hpolicy _) _ henv he.2.1).answer _ hfirst
    have hc := (followMaps_keeps (hpolicy _) _ henv hearlier hstart).answer _ hbefore
    exact ⟨a, henv.focusOn (hc.delivered _ hitem) _ _ _, hlater.1⟩
  | body hfunction hvalues hopens =>
    obtain ⟨_, hf⟩ := (Expr.value_keeps (hpolicy _) _ henv he.2.1).answer _ hfunction _
      List.mem_cons_self _ rfl
    exact hopens.bound henv hf ((valuesOf_keeps (hpolicy _) _ henv he.2.2).answer _ hvalues)

theorem Reaches.bound (h : p.Reaches q) (hp : p.Bound supplied) : q.Bound supplied := by
  induction h with
  | refl => exact hp
  | tail _ hstep ih => exact hstep.bound ih

/-- Of a call: what it ends with is made of the value of a body, and wherever evaluation gets in a
body that is called, short of other calls, a reference to a parameter is what the call hands to
that. -/
structure ReadsArguments (p : Point) : Prop where
  calls : ∀ function args items, p.expr.form = .apply function args → p.EndsWith items →
    ∃ f values q result, p.Calls f values q ∧ q.EndsWith result ∧
      (f.results p.env.forest p.expr.location result).Gives items
  reads : ∀ f values q r v, p.Calls f values q → q.Reaches r → r.depth = q.depth →
    r.expr.form = .reference v →
    v.name ∈ f.parameters.map Variable.name →
    ∃ value, f.Hands p.env p.expr.location values v.name value ∧
      (r.expr.iterate (callWithin r.depth) r.env).Gives (.ofList value)

theorem Bound.readsArguments (hp : p.Bound supplied) : p.ReadsArguments where
  calls _ _ _ hform hitems := hitems.calls hform
  reads f values q r v hcall hreach hdepth hform hname := by
    obtain ⟨a, henv, he⟩ := hp
    have hpolicy (d : Nat) : Policy (.bound supplied) (callWithin d) (.bound supplied) a
        (Env.Binds supplied a.own) :=
      policy_bound (callWithin_binds d) a
    obtain ⟨b, hf⟩ : ∃ b, f.Satisfies (.bound supplied) b := by
      cases hcall with
      | intro hfunction _ _ =>
        exact (Expr.value_keeps (hpolicy _) _ henv he.2.1).answer _ hfunction _
          List.mem_cons_self _ rfl
    obtain ⟨value, hhands, hlookup⟩ := hcall.opens.hands hf hname
    rw [← hreach.locals_eq hdepth] at hlookup
    refine ⟨value, hhands, ?_⟩
    obtain ⟨d, env, form, τ, l⟩ := r
    obtain rfl : form = .reference v := hform
    rw [Expr.iterate, Form.iterate, Env.lookup, hlookup, Logged.gives_locate, Logged.gives_map]
    exact ⟨value, Logged.gives_pure.mpr rfl, rfl⟩

end Point

/-! ### Queries -/

/-- Whether a value is supplied for each declared variable, and neither functions among what is
supplied nor the matcher ask for the value of another one. -/
structure Context.Supplies (c : Context) (s : StaticContext) : Prop where
  globals : ∀ v ∈ s.externals, ∃ value, c.globals.lookup v.name = some value
  globalItems : ∀ name value, c.globals.lookup name = some value →
    (Promise.bound s.Declares).items value
  item : ∀ item, c.item = some item → (Promise.bound s.Declares).item item
  matcher : ∀ m, c.matcher = some m → ∀ text query, Raises Error.NotUnbound (m text query)

theorem Context.Supplies.binds {c : Context} {s : StaticContext} (h : c.Supplies s)
    (scoring : Bool) : ((Env.ofContext c).withScoring scoring).Binds s.Declares [] where
  globals name := by
    rintro ⟨v, hv, rfl⟩
    exact h.globals v hv
  locals name hname := absurd hname List.not_mem_nil
  globalItems := h.globalItems
  localItems name value hvalue := by cases hvalue
  focus item hfocus := by
    refine h.item item ?_
    cases hc : c.item <;> simp_all [Env.ofContext, Env.withScoring, Focus.ofItem?, Focus.none]
  matcher := h.matcher

/-- Evaluation of a self-contained expression that compiles finds a value for every variable, if one
is supplied for each declared variable: neither the query nor any pull on its cursor fails for a
variable without a value, and no function that is delivered will. Wherever evaluation gets to a
call, references in the body to a parameter read what that call hands to it. -/
theorem Query.evaluate_bound {s : StaticContext} {e : Expr} {q : Query} {c : Context}
    (he : e.SelfContained) (hq : compile s e = .ok q) (hc : c.Supplies s) :
    (q.stream c).Keeps (.bound s.Declares) (Cursor.Keeps (.bound s.Declares)) ∧
    (q.evaluate c).Keeps (.bound s.Declares) (Promise.bound s.Declares).items ∧
    ((q.evaluateScored c).Keeps (.bound s.Declares) fun scored =>
      ∀ entry ∈ scored, (Promise.bound s.Declares).item entry.1) ∧
    ∀ p, (q.start c).Reaches p → p.ReadsArguments := by
  have hnodes : q.expr.Satisfies (.bound s.Declares) .none := Query.compile_bound he hq
  have hcall : (callWithin c.callDepth).Binds s.Declares := callWithin_binds c.callDepth
  have hpolicy := policy_bound hcall .none
  have hstart : (q.start c).Bound s.Declares := ⟨.none, hc.binds c.scoring, hnodes⟩
  have iterate (scoring : Bool) := Expr.iterate_keeps hpolicy q.expr (hc.binds scoring) hnodes
  refine ⟨iterate c.scoring, ?_, ?_, fun p hp => (hp.bound hstart).readsArguments⟩
  · exact (iterate c.scoring).bind fun cursor hcursor =>
      Cursor.drain_keeps Promise.bound_lawful hcursor
  · exact (iterate true).bind fun cursor hcursor =>
      Cursor.drainScored_keeps Promise.bound_lawful hcursor

/-- The body of a function names its parameter and a variable that is supplied. -/
theorem Query.evaluate_bound_call :
    let x : Variable := { name := .plain "x" }
    let n : Variable := { name := .plain "n" }
    let body : Expr := .of (.comparison .general .eq (.of (.reference x)) (.of (.reference n)))
    let e : Expr := .of (.apply (.of (.function (.ofParams [x] none body))) [.ofInt 1])
    let s : StaticContext := { externals := [n] }
    let c : Context := { forest := .empty false, globals := [(.plain "n", [.atomic (.integer 1)])] }
    ∃ q, compile s e = .ok q ∧ (q.evaluate c).Gives [.atomic (.boolean true)] ∧
      (q.stream c).Keeps (.bound s.Declares) (Cursor.Keeps (.bound s.Declares)) ∧
      (q.evaluate c).Keeps (.bound s.Declares) (Promise.bound s.Declares).items ∧
      ((q.evaluateScored c).Keeps (.bound s.Declares) fun scored =>
        ∀ entry ∈ scored, (Promise.bound s.Declares).item entry.1) ∧
      ∀ p, (q.start c).Reaches p → p.ReadsArguments := by
  intro x n body e s c
  have contained : e.SelfContained := by
    have hbody : body.Satisfies (.uncaptured fun _ _ => False) (Parameters.none.enter [x]) :=
      ⟨trivial, ⟨.inl (by decide), trivial⟩, ⟨.inr (by decide), trivial⟩⟩
    exact ⟨trivial, ⟨trivial, rfl, hbody⟩, ⟨trivial, trivial⟩, trivial⟩
  have supplies : c.Supplies s := by
    refine ⟨?_, ?_, fun item h => (by cases h), fun m h => (by cases h)⟩
    · intro v hv
      obtain rfl := List.mem_singleton.mp hv
      exact ⟨_, rfl⟩
    · intro name value hvalue item hitem f hf
      simp only [c, List.lookup_cons, List.lookup_nil] at hvalue
      split at hvalue
      · obtain rfl := Option.some.inj hvalue
        obtain rfl := List.mem_singleton.mp hitem
        cases hf
      · cases hvalue
  exact ⟨_, rfl, rfl, Query.evaluate_bound contained rfl supplies⟩

/-- A function in the body of another one does not find the parameter of that one, although the
reference compiles. -/
theorem Query.evaluate_captured :
    let x : Variable := { name := .plain "x" }
    let inner : Expr := .of (.apply (.of (.function (.ofParams [] none (.of (.reference x))))) [])
    let e : Expr := .of (.apply (.of (.function (.ofParams [x] none inner))) [.ofInt 1])
    let c : Context := { forest := .empty false }
    ∃ q, compile {} e = .ok q ∧ (q.evaluate c).outcome = .error
      (.error (.of (.unbound x.name))) := by
  intro x inner e c
  exact ⟨_, rfl, rfl⟩

end TreeQuery
