import TreeQuery.Proofs.Compile.Expression
import TreeQuery.Proofs.Eval.Promise
/-!
# Variables that have a value

Compilation looks for the variable of a reference among the parameters of all functions around it.
Evaluation knows only those of the innermost call. Where bodies name no parameters but their own
(`Expr.SelfContained`), all references in what was compiled are to those or to declared variables
(`Query.compile_bound`), and evaluation keeps the promise that no variable is without a value
(`policy_bound`, `callWithin_binds`).
-/

namespace TreeQuery

/-- The names of the parameters of the function around a node, and of those of the functions around
that one. -/
structure Parameters where
  own : List ExpandedName
  outer : List ExpandedName

namespace Parameters

def none : Parameters := ⟨[], []⟩

def enter (a : Parameters) (params : List Variable) : Parameters :=
  ⟨params.map Variable.name, a.own ++ a.outer⟩

end Parameters

/-- References are to parameters of the function around them or to variables that are supplied. -/
def Demand.bound (supplied : ExpandedName → Prop) : Demand Parameters where
  enter := Parameters.enter
  node a form _ := match form with
    | .reference v => v.name ∈ a.own ∨ v.name ∉ a.outer ∧ supplied v.name
    | .failure e => e.NotUnbound
    | _ => True
  inline s params := s.params.length = params.length

/-- References are to no parameter but one of the function around them. What is true of coerced
functions is told by `coerced`. -/
def Demand.uncaptured (coerced : Parameters → FunctionItem → Prop) : Demand Parameters where
  enter := Parameters.enter
  node a form _ := match form with
    | .reference v => v.name ∈ a.own ∨ v.name ∉ a.outer
    | .failure e => e.NotUnbound
    | .function (.coerced _ _ inner) => coerced a inner
    | _ => True
  inline s params := s.params.length = params.length

/-- All function items are inline ones, with as many parameters as their signature says, and name no
parameters in their bodies but their own. -/
def Expr.SelfContained (e : Expr) : Prop := e.Satisfies (.uncaptured fun _ _ => False) .none

/-! ### Compilation -/

section Compile

variable {supplied : ExpandedName → Prop}

theorem transfer_bound :
    Transfer (.uncaptured fun a f => f.Satisfies (.bound supplied) a)
      (.bound supplied) fun a scope => ∀ v ∈ scope.visible, v.name ∈ a.own ∨ v.name ∈ a.outer ∨
    supplied v.name where
  enter := rfl
  inline := rfl
  withFocus h _ := h
  withVariables {a scope} h params v hv := by
    -- what was a parameter of the function around is now one of an outer function
    rcases List.mem_append.mp hv with hv | hv
    · exact .inl (List.mem_map_of_mem (List.mem_reverse.mp hv))
    · rcases h v hv with hown | houter | hsupplied
      · exact .inr (.inl (List.mem_append_left _ hown))
      · exact .inr (.inl (List.mem_append_right _ houter))
      · exact .inr (.inr hsupplied)
  ordinary a form h := by
    cases form <;> trivial
  leaf {a form τ} hleaf h := by
    cases form with
    | failure e => exact h
    | reference v => exact absurd hleaf not_false
    | _ => trivial
  contextItem _ _ := trivial
  path _ _ _ _ := trivial
  relativePath _ _ _ := trivial
  stepless _ _ _ _ _ := trivial
  rootless _ := trivial
  compiled _ _ _ _ := trivial
  recast _ _ := trivial
  deferred _ _ he _ := he.notUnbound
  reference {a scope v τ found} hscope h hfound := by
    have hname : found.name = v.name := by simpa using List.find?_some hfound
    have hvisible := hscope found (List.mem_of_find?_eq_some hfound)
    rw [hname] at hvisible
    show found.name ∈ a.own ∨ found.name ∉ a.outer ∧ supplied found.name
    rw [hname]
    rcases h with hown | houter
    · exact .inl hown
    · rcases hvisible with hown | hcaptured | hsupplied
      · exact .inl hown
      · exact absurd hcaptured houter
      · exact .inr ⟨houter, hsupplied⟩
  conditional _ _ _ _ := trivial
  coerced h := h
  again a form τ h hform := by
    cases form with
    | reference v => exact h.imp_right And.left
    | failure e => exact h
    | function f =>
      cases f with
      | inline name s params body => trivial
      | coerced name s inner => exact hform
    | _ => trivial
  inlined {a form τ} h value := by
    cases form with
    | map es => cases es <;> trivial
    | reference v => exact h
    | failure e => exact h
    | function f => exact h
    | _ => trivial

theorem Expr.SelfContained.source {e : Expr} (h : e.SelfContained) :
    e.Satisfies (.uncaptured fun a f => f.Satisfies (.bound supplied) a) .none := by
  have hnode : ∀ a form τ, (Demand.uncaptured fun _ _ => False).node a form τ →
      (Demand.uncaptured fun a f => f.Satisfies (.bound supplied) a).node a form τ := by
    intro a form τ hnode
    cases form with
    | function f =>
      cases f with
      | inline name s params body => trivial
      | coerced name s inner => exact absurd hnode not_false
    | _ => exact hnode
  refine Expr.Satisfies.weaken ?_ ?_ (fun a form τ h _ => hnode a form τ h) h
  · rfl
  · exact fun _ _ h => h

def StaticContext.Declares (s : StaticContext) (name : ExpandedName) : Prop :=
  ∃ v ∈ s.externals, v.name = name

/-- References in what was compiled are to parameters of the function around them or to declared
variables. -/
theorem Query.compile_bound {s : StaticContext} {e : Expr} {q : Query} (he : e.SelfContained)
    (hq : compile s e = .ok q) : q.expr.Satisfies (.bound s.Declares) .none := by
  have hscope : ∀ v ∈ s.scope.visible, v.name ∈ Parameters.none.own ∨
    v.name ∈ Parameters.none.outer ∨
      s.Declares v.name := fun v hv => .inr (.inr ⟨v, List.mem_reverse.mp hv, rfl⟩)
  exact Query.compile_satisfies transfer_bound hscope he.source hq

end Compile

/-! ### Evaluation -/

def Failure.NotUnbound : Failure → Prop
  | .error e => e.NotUnbound
  | .aborted => True

theorem placeless_notUnbound : Placeless Failure.NotUnbound := by
  intro f l h
  cases f with
  | error e => exact h.locate l
  | aborted => trivial

/-- The promise that no variable is without a value: neither now nor in a function that is
delivered. -/
def Promise.bound (supplied : ExpandedName → Prop) : Promise :=
  ⟨fun _ => True, fun item => ∀ f, item = .function f → ∃ a, f.Satisfies (.bound supplied) a,
    Failure.NotUnbound⟩

section Evaluate

variable {supplied : ExpandedName → Prop}

theorem Promise.bound_lawful : (bound supplied).Lawful where
  node n f hf := by cases hf
  atomic v f hf := by cases hf
  coerce {f s g} hg h f' hf' := by
    obtain ⟨a, ha⟩ := h f rfl
    obtain rfl := Item.function.inj hf'
    exact ⟨a, ha.coerce hg⟩
  remark _ _ := trivial
  error he := he.notUnbound
  aborted := trivial
  placeless := placeless_notUnbound

/-- An environment with values for what is supplied and for the parameters `own`, in which all
function items are bound. -/
structure Env.Binds (supplied : ExpandedName → Prop) (own : List ExpandedName) (env : Env) :
    Prop where
  globals : ∀ name, supplied name → ∃ value, env.globals.lookup name = some value
  locals : ∀ name ∈ own, ∃ value, env.locals.lookup name = some value
  globalItems : ∀ name value, env.globals.lookup name = some value →
    (Promise.bound supplied).items value
  localItems : ∀ name value, env.locals.lookup name = some value →
    (Promise.bound supplied).items value
  focus : ∀ item, env.focus.item = some item → (Promise.bound supplied).item item
  matcher : ∀ m, env.matcher = some m → ∀ text query, Raises Error.NotUnbound (m text query)

namespace Env

variable {own : List ExpandedName} {env : Env}

theorem Binds.lookup (henv : env.Binds supplied own) {v : Variable}
    (h : v.name ∈ own ∨ supplied v.name) (l : Option Location) :
    (env.lookup v l).Keeps (.bound supplied) (Promise.bound supplied).items := by
  refine env.lookup_keeps Promise.bound_lawful l (henv.localItems _)
    (henv.globalItems _) fun hlocal hglobal => ?_
  rcases h with hown | hsupplied
  · obtain ⟨value, hvalue⟩ := henv.locals _ hown
    cases hlocal.symm.trans hvalue
  · obtain ⟨value, hvalue⟩ := henv.globals _ hsupplied
    cases hglobal.symm.trans hvalue

theorem Binds.enter (henv : env.Binds supplied own) {locals : Bindings} {own' : List ExpandedName}
    (hlocals : ∀ name ∈ own', ∃ value, locals.lookup name = some value)
    (hitems : ∀ name value, locals.lookup name = some value →
      (Promise.bound supplied).items value) : (env.enter locals).Binds supplied own' :=
  ⟨henv.globals, hlocals, henv.globalItems, hitems, fun item h => (by cases h), henv.matcher⟩

theorem Binds.focusOn (henv : env.Binds supplied own) {item : Item}
    (hitem : (Promise.bound supplied).item item) (size : Option Nat) (scoring : Bool) (n : Nat) :
    (env.focusOn size scoring n item).Binds supplied own :=
  ⟨henv.globals, henv.locals, henv.globalItems, henv.localItems,
    fun _ h => Option.some.inj h ▸ hitem, henv.matcher⟩

end Env

def Caller.Binds (supplied : ExpandedName → Prop) (call : Caller) : Prop := ∀ {own env f a args} l,
  env.Binds supplied own → f.Satisfies (.bound supplied) a →
    (∀ arg ∈ args, (Promise.bound supplied).items arg) →
  (call env f args l).Keeps (.bound supplied) (Promise.bound supplied).items

theorem policy_bound {call : Caller} (hcall : call.Binds supplied) (a : Parameters) :
    Policy (.bound supplied) call (.bound supplied) a (Env.Binds supplied a.own) where
  lawful := Promise.bound_lawful
  focus henv := henv.focus _
  absent _ _ := Error.static_contextAbsent.notUnbound
  focusOn henv hitem size scoring n := henv.focusOn hitem (some size) scoring n
  streamed := .inl fun henv hitem scoring n => henv.focusOn hitem none scoring n
  size {env} _ := by
    unfold Env.contextSize
    split
    · exact .pure trivial
    all_goals exact .fail fun _ => nofun
  matcher henv := henv.matcher _
  function _ h _ hf := Item.function.inj hf ▸ ⟨a, h⟩
  failure h := h
  reference henv h l := henv.lookup (h.imp_right And.right) l
  trace _ _ _ := trivial
  apply henv _ hg hargs l := by
    obtain ⟨a, ha⟩ := hg _ rfl
    exact hcall l henv ha hargs

theorem FunctionItem.callWith_binds {call : Caller} (hcall : call.Binds supplied)
    {own : List ExpandedName} {env : Env} (henv : env.Binds supplied own) (l : Option Location)
    {f : FunctionItem} {a : Parameters} (hf : f.Satisfies (.bound supplied) a)
    {args : List (List Item)} (hargs : ∀ arg ∈ args, (Promise.bound supplied).items arg) :
    (f.callWith (fun env e => e.value call env) env args l).Keeps (.bound supplied)
      (Promise.bound supplied).items := by
  refine FunctionItem.callWith_keeps Promise.bound_lawful f hf ?_ hargs
  intro s params locals hinline hbody hlocals hitems
  -- the call's own bindings replace those of the caller, whatever function the call stands in
  have hinner : (env.enter locals).Binds supplied (params.map Variable.name) :=
    henv.enter (List.forall_mem_map.mpr (hlocals hinline)) hitems
  exact Expr.value_keeps (policy_bound hcall (a.enter params)) _ hinner hbody

theorem callWithin_binds : (depth : Nat) → (callWithin depth).Binds supplied
  | 0, _, _, _, _, _, _, _, _, _ => .fail trivial
  | depth + 1, _, _, _, _, _, l, henv, hf, hargs =>
    FunctionItem.callWith_binds (callWithin_binds depth) henv l hf hargs

end Evaluate

end TreeQuery
