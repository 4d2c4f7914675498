import TreeQuery.Proofs.Compile.Unfocused
import TreeQuery.Proofs.Eval.Size
/-!
# A focus that is not there is found by compilation

Where there is no focus, compilation fails for what looks at the item in focus, and so evaluation
does not fail for it (`Query.context_known`). Two things get past it. A failure that is put off is
raised if it is evaluated. And a path without a root starts from the item in focus even if its first
step has no use for it, which compilation does not look for (`Query.context_missed`).

Bodies of functions are evaluated without a focus. What they are compiled to needs none
(`Expr.Unfocused`), so they are evaluated as if there were one.
-/

namespace TreeQuery

/-! ### What is demanded -/

/-- Of function items. -/
def Demand.functions (F : FunctionItem → Prop) : Demand Unit where
  enter _ _ := ()
  node _ form _ := match form with
    | .function f => F f
    | _ => True

def Demand.unfocused : Demand Unit := .functions fun f => f.innermost.Unfocused

/-- Bodies of functions have no path without a root that would start from a focus of theirs. What is
true of coerced functions is told by `coerced`. -/
def Demand.anchored (coerced : FunctionItem → Prop) : Demand Unit := .functions fun f =>
  match f with
  | .inline _ _ _ body => body.asks .root = false
  | .coerced _ _ inner => coerced inner

def Demand.quiet : Demand Unit where
  enter _ _ := ()
  node _ form _ := match form with
    | .failure e => ¬e.ReadsAs .contextAbsent
    | _ => True

def Demand.present : Demand Unit where
  enter _ _ := ()
  node _ form _ := match form with
    | .function f => f.innermost.Unfocused
    | .failure e => ¬e.ReadsAs .contextAbsent
    | _ => True

/-- All function items are inline ones, and their bodies have no path without a root that would
start from a focus of theirs. -/
def Expr.Anchored (e : Expr) : Prop := e.Satisfies (.anchored fun _ => False) ()

/-! ### Compilation -/

theorem transfer_unfocused :
    Transfer (.anchored fun f => f.Satisfies .unfocused () ∧ f.innermost.Unfocused) .unfocused
      fun _ _ => True where
  enter := rfl
  inline := rfl
  withFocus _ _ := trivial
  withVariables _ _ := trivial
  ordinary _ form h := by
    cases form with
    | function f => exact absurd h not_false
    | _ => trivial
  leaf {a form τ} hleaf _ := by
    cases form with
    | function f => exact absurd hleaf not_false
    | _ => trivial
  contextItem _ _ := trivial
  path _ _ _ _ := trivial
  relativePath _ _ _ := trivial
  stepless _ _ _ _ _ := trivial
  rootless _ := trivial
  compiled {a scope f τ g} d _ hf hg := by
    show g.innermost.Unfocused
    have hopt : (optimizerWithin d).KeepsUnfocused := optimizerWithin_keepsUnfocused d
    cases f with
    | inline name s params body =>
      simp only [FunctionItem.compile, Logged.gives_bind, Logged.gives_pure] at hg
      obtain ⟨compiled, hcompiled, checked, hchecked, rfl⟩ := hg
      exact Expr.checkAs_unfocused hopt hchecked (Expr.compile_unfocused hopt rfl body hf hcompiled)
    | coerced name s inner =>
      simp only [FunctionItem.compile, Logged.gives_pure] at hg
      exact hg ▸ hf.2
  recast {a f τ s g} h hg := by
    show g.innermost.Unfocused
    exact FunctionItem.innermost_coerce hg ▸ h
  deferred _ _ _ _ := trivial
  reference _ _ _ := trivial
  conditional _ _ _ _ := trivial
  coerced h := h.1
  again a form τ h hform := by
    cases form with
    | function f =>
      cases f with
      | inline name s params body =>
        have hbody : body.Unfocused := h
        exact hbody .root (by decide)
      | coerced name s inner => exact ⟨hform, h⟩
    | _ => trivial
  inlined {a form τ} h value := by
    cases form with
    | map es => cases es <;> trivial
    | function f => exact h
    | _ => trivial

theorem Expr.Anchored.source {e : Expr} (h : e.Anchored) :
    e.Satisfies (.anchored fun f => f.Satisfies .unfocused () ∧ f.innermost.Unfocused) () := by
  refine Expr.Satisfies.weaken ?_ ?_ (fun a form τ hnode _ => ?_) h
  · rfl
  · exact fun _ _ h => h
  · cases form with
    | function f =>
      cases f with
      | inline name s params body => exact hnode
      | coerced name s inner => exact absurd hnode not_false
    | _ => trivial

/-- Without a context item the compiled query needs no focus; bodies of its functions need none in
any case. -/
theorem Query.compile_unfocused {s : StaticContext} {e : Expr} {q : Query} (he : e.Anchored)
    (hq : compile s e = .ok q) :
    q.expr.Satisfies .unfocused () ∧ (s.item = none → e.asks .root = false → q.expr.Unfocused) := by
  refine ⟨Query.compile_satisfies transfer_unfocused trivial he.source hq, fun hitem hroot => ?_⟩
  exact Expr.compile_unfocused (optimizerWithin_keepsUnfocused s.optimizeDepth) hitem e hroot
    (Query.compile_gives hq)

/-! ### Failures that are reported alike -/

theorem Cause.message_unbound_ne (v : ExpandedName) :
    (Cause.unbound v).message ≠ Cause.contextAbsent.message := by
  intro h
  have first : ("no value bound to $" ++ v.render).toList.head? =
      "context item is undefined".toList.head? :=
    congrArg (fun s : String => s.toList.head?) h
  rw [String.toList_append] at first
  exact absurd first (by simp)

theorem Error.Ordinary.not_absent {e : Error} (h : e.Ordinary) : ¬e.ReadsAs .contextAbsent := by
  obtain ⟨cause, phase, location, detail⟩ := e
  rintro ⟨hcode, -⟩
  simp only [code] at hcode
  cases cause with
  | unbound | contextAbsent | sizeUnknown | raised => exact h
  | _ => simp [Cause.code, Cause.errorCode, ErrorCode.name, ErrorCode.symbol] at hcode

/-! ### Evaluation -/

/-- The promise that no failure is reported as a focus that is not there: neither now nor by a
function that is delivered. -/
def Promise.present : Promise :=
  ⟨fun _ => True, fun item => ∀ f, item = .function f → f.Satisfies .present () ∧
    f.innermost.Unfocused,
    fun failure => ∀ e, failure = .error e → ¬e.ReadsAs .contextAbsent⟩

theorem Promise.present_lawful : present.Lawful where
  node _ _ hf := by cases hf
  atomic _ _ hf := by cases hf
  coerce {f s g} hg h f' hf' := by
    obtain rfl := Item.function.inj hf'
    obtain ⟨hf, hbody⟩ := h f rfl
    exact ⟨hf.coerce hg, FunctionItem.innermost_coerce hg ▸ hbody⟩
  remark _ _ := trivial
  error he e' heq := (Failure.error.inj heq ▸ he).not_absent
  aborted e h := by cases h
  placeless f l h e he hreads := by
    cases f with
    | error e' =>
      obtain rfl : e'.locate l = e := Failure.error.inj he
      exact h e' rfl hreads
    | aborted => cases he

/-- An environment with items and a matcher that keep the promise. -/
structure Env.Supplied (env : Env) : Prop where
  focus : ∀ item, env.focus.item = some item → Promise.present.item item
  globals : ∀ name value, env.globals.lookup name = some value → Promise.present.items value
  locals : ∀ name value, env.locals.lookup name = some value → Promise.present.items value
  matcher : ∀ m, env.matcher = some m →
    ∀ text words, Raises (fun e => Promise.present.failure (.error e)) (m text words)

def Env.inFocus (env : Env) : Env :=
  env.withFocus ⟨some (.atomic (.boolean true)), env.focus.position, none⟩

theorem Env.Supplied.inFocus {env : Env} (h : env.Supplied) : env.inFocus.Supplied where
  focus _ hitem _ hf := by
    subst hf
    exact Item.noConfusion (Option.some.inj hitem)
  globals := h.globals
  locals := h.locals
  matcher := h.matcher

/-- Whether calls keep the promise, and take no notice of the focus. -/
structure Caller.Present (call : Caller) : Prop where
  blind : call.IgnoresFocus
  keeps : ∀ {env f args} l, env.Supplied → f.Satisfies .present () → f.innermost.Unfocused →
    (∀ arg ∈ args, Promise.present.items arg) →
    (call env f args l).Keeps .present Promise.present.items

theorem policy_present {call : Caller} (hcall : call.Present) :
    Policy .present call .present () fun env => env.Supplied ∧ env.focus.item.isSome where
  lawful := Promise.present_lawful
  focus henv := henv.1.focus _
  absent henv hitem := absurd henv.2 (by simp [hitem])
  focusOn henv hitem _ _ _ :=
    ⟨⟨fun _ h => Option.some.inj h ▸ hitem, henv.1.globals, henv.1.locals, henv.1.matcher⟩, rfl⟩
  streamed := .inr hcall.blind
  size {env} henv := by
    unfold Env.contextSize
    split
    · exact .pure trivial
    · refine .fail fun e he hreads => ?_
      obtain rfl := Failure.error.inj he
      exact absurd hreads.1 (by decide)
    · next _ _ hitem => exact absurd henv.2 (by simp [hitem])
  matcher henv := henv.1.matcher _
  function hbody h _ hf := Item.function.inj hf ▸ ⟨h, hbody⟩
  failure h _ he := Failure.error.inj he ▸ h
  reference {env v _} henv _ l :=
    env.lookup_keeps Promise.present_lawful l (henv.1.locals _)
        (henv.1.globals _) fun _ _ e he hreads => by
      obtain rfl := Failure.error.inj he
      exact Cause.message_unbound_ne v.name hreads.2
  trace _ _ _ := trivial
  apply henv _ hg hargs l := hcall.keeps l henv.1 (hg _ rfl).1 (hg _ rfl).2 hargs

section Expressions

variable {call : Caller} (hcall : call.Present) {e : Expr} {env : Env}
    (he : e.Satisfies .present ()) (henv : env.Supplied)

include hcall he henv

/-- An expression keeps the promise where there is a focus, and one that needs none where there is
none, too. -/
theorem Expr.iterate_present (h : e.Unfocused ∨ env.focus.item.isSome) :
    (e.iterate call env).Keeps .present (Cursor.Keeps .present) := by
  rcases h with h | h
  · have hsame : e.iterate call env.inFocus = e.iterate call env :=
      Expr.iterate_agree hcall.blind e (h.agrees rfl)
    exact hsame ▸ Expr.iterate_keeps (policy_present hcall) e ⟨henv.inFocus, rfl⟩ he
  · exact Expr.iterate_keeps (policy_present hcall) e ⟨henv, h⟩ he

theorem Expr.value_present (h : e.Unfocused) :
    (e.value call env).Keeps .present Promise.present.items := by
  have hsame : e.value call env.inFocus = e.value call env :=
    Expr.value_agree hcall.blind e (h.agrees rfl)
  exact hsame ▸ Expr.value_keeps (policy_present hcall) e ⟨henv.inFocus, rfl⟩ he

end Expressions

theorem callWithin_present : (depth : Nat) → (callWithin depth).Present
  | 0 => ⟨callWithin_ignoresFocus 0, fun _ _ _ _ _ => .fail Promise.present_lawful.aborted⟩
  | depth + 1 => by
    refine ⟨callWithin_ignoresFocus (depth + 1), fun l henv hf hbody hargs => ?_⟩
    refine FunctionItem.callWith_keeps Promise.present_lawful _ hf
      (fun s params locals _ hsatisfies _ hlocals => ?_) hargs
    have hinner : (Env.enter _ locals).Supplied :=
      ⟨fun _ h => (by cases h), henv.globals, hlocals, henv.matcher⟩
    exact Expr.value_present (callWithin_present depth) hsatisfies hinner hbody

/-! ### Queries -/

/-- Functions and a matcher that are supplied do not fail by themselves for want of a focus. -/
structure Context.Supplied (c : Context) : Prop where
  item : ∀ item, c.item = some item → Promise.present.item item
  globals : ∀ name value, c.globals.lookup name = some value → Promise.present.items value
  matcher : ∀ m, c.matcher = some m →
    ∀ text words, Raises (fun e => Promise.present.failure (.error e)) (m text words)

theorem Context.focus_item (c : Context) (scoring : Bool) :
    ((Env.ofContext c).withScoring scoring).focus.item = c.item := by
  cases hitem : c.item <;> simp [Env.ofContext, Env.withScoring, Focus.ofItem?, Focus.none, hitem]

theorem Context.Supplied.env {c : Context} (hc : c.Supplied) (scoring : Bool) :
    ((Env.ofContext c).withScoring scoring).Supplied where
  focus item hfocus := hc.item item (c.focus_item scoring ▸ hfocus)
  globals := hc.globals
  locals _ _ h := by cases h
  matcher := hc.matcher

/-- Whether no evaluation of the query in a context fails for want of a focus: with scores or
without, at once or in a pull on its cursor. -/
structure Query.FindsFocus (q : Query) (c : Context) : Prop where
  stream : (q.stream c).Keeps .present (Cursor.Keeps .present)
  evaluate : (q.evaluate c).Keeps .present Promise.present.items
  evaluateScored : (q.evaluateScored c).Keeps .present fun scored =>
    ∀ entry ∈ scored, Promise.present.item entry.1

/-- Whether no call of the function fails for want of a focus, whatever the environment has in
focus. -/
def FunctionItem.FindsFocus (f : FunctionItem) : Prop := ∀ depth (env : Env) args l, env.Supplied →
  (∀ arg ∈ args, Promise.present.items arg) →
  (callWithin depth env f args l).Keeps .present Promise.present.items

/-- A focus that is not there is found by compilation, paths without a root aside. Let none of them
start from the focus of a function body, and let no failure for want of a focus be put off. Then the
query does not fail for that reason in a context with an item in focus, nor without one if it was
compiled so and has no path without a root that starts from there; and calls of its functions do not
in any environment. -/
theorem Query.context_known {s : StaticContext} {e : Expr} {q : Query} (he : e.Anchored)
    (hq : compile s e = .ok q) (hquiet : q.expr.Satisfies .quiet ()) :
    (∀ c : Context, c.Supplied → c.item.isSome ∨ s.item = none ∧ e.asks .root = false →
      q.FindsFocus c) ∧
    q.expr.Satisfies (.functions FunctionItem.FindsFocus) () := by
  obtain ⟨hfunctions, hneeds⟩ := Query.compile_unfocused he hq
  have follows : Demand.present.FollowsFrom .unfocused .quiet := by
    refine ⟨rfl, rfl, fun _ _ _ h => h, fun a form τ hfunction _ hfailure _ => ?_⟩
    cases form with
    | function f => exact hfunction
    | failure e => exact hfailure
    | _ => trivial
  have hnodes : q.expr.Satisfies .present () := hfunctions.combine follows hquiet
  constructor
  · intro c hc hitem
    have iterate (scoring : Bool) := by
      refine Expr.iterate_present (callWithin_present c.callDepth) hnodes (hc.env scoring) ?_
      rw [c.focus_item]
      exact hitem.symm.imp_left fun h => hneeds h.1 h.2
    refine ⟨iterate c.scoring, ?_, ?_⟩
    · exact (iterate c.scoring).bind fun cursor hcursor =>
        Cursor.drain_keeps Promise.present_lawful hcursor
    · exact (iterate true).bind fun cursor hcursor =>
        Cursor.drainScored_keeps Promise.present_lawful hcursor
  · refine Expr.Satisfies.weaken ?_ ?_ (fun a form τ hnode hform => ?_) hnodes
    · rfl
    · exact fun _ _ h => h
    · cases form with
      | function f => exact fun depth env args l henv hargs =>
        (callWithin_present depth).keeps l henv hform hnode hargs
      | _ => trivial

/-- The body of a function gets a focus from its parameter, and there is none besides. -/
theorem Query.context_known_call :
    let x : Variable := { name := .plain "x" }
    let body : Expr := .of (.map [.of (.reference x), .contextItem])
    let e : Expr := .of (.apply (.of (.function (.ofParams [x] none body))) [.ofInt 1])
    let s : StaticContext := { item := none }
    let c : Context := { forest := .empty false }
    ∃ q, compile s e = .ok q ∧ (q.evaluate c).Gives [.atomic (.integer 1)] ∧ q.FindsFocus c ∧
      q.expr.Satisfies (.functions FunctionItem.FindsFocus) () := by
  intro x body e s c
  have anchored : e.Anchored :=
    ⟨trivial, ⟨rfl, trivial, ⟨trivial, ⟨trivial, trivial⟩, ⟨trivial, trivial⟩, trivial⟩⟩,
      ⟨trivial, trivial⟩, trivial⟩
  have supplied : c.Supplied :=
    ⟨fun _ h => (by cases h), fun _ _ h => (by cases h), fun _ h => (by cases h)⟩
  obtain ⟨q, hq, hquiet⟩ : ∃ q, compile s e = .ok q ∧ q.expr.Satisfies .quiet () := ⟨_, rfl, by
    exact ⟨trivial, ⟨trivial, trivial, ⟨trivial, ⟨trivial, trivial⟩, ⟨trivial, trivial⟩, trivial⟩⟩,
      ⟨trivial, trivial⟩, trivial⟩⟩
  have known := Query.context_known anchored hq hquiet
  refine ⟨q, hq, ?_, known.1 c supplied (.inr ⟨rfl, rfl⟩), known.2⟩
  obtain rfl := Except.ok.inj hq
  rfl

/-- A path without a root, the step of which is a number, compiles without a context item and asks
for one. -/
theorem Query.context_missed :
    let e : Expr := .of (.relativePath [.ofInt 1])
    let c : Context := { forest := .empty false }
    ∃ q err, compile { item := none } e = .ok q ∧ e.Anchored ∧ q.expr.Satisfies .quiet () ∧
      (q.evaluate c).outcome = .error (.error err) ∧ err.ReadsAs .contextAbsent := by
  intro e c
  exact ⟨_, _, rfl, ⟨trivial, ⟨trivial, trivial⟩, trivial⟩,
    ⟨trivial, ⟨trivial, trivial⟩, trivial⟩, rfl, rfl, rfl⟩

end TreeQuery
