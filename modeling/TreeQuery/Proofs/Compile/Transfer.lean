import TreeQuery.Proofs.Compile.Cases
import TreeQuery.Proofs.Demand
import TreeQuery.Proofs.Ensures
import TreeQuery.Proofs.Errors
/-!
# What compilation makes of demands

Compilation moves and drops nodes, and of the nodes that it makes most are of forms about which
nothing is to be known. A `Transfer` says how a demand on all nodes of a source leads to one on all
nodes of what is compiled from it: by what is true of the references, functions, conditionals and
deferred failures that are made. The lemmas on the rules speak of their failures too: compilation
fails for ordinary reasons or for want of a focus, and finds no variable without a value.
-/

namespace TreeQuery

def Failure.Static : Failure → Prop
  | .error e => e.Static
  | .aborted => True

theorem placeless_static : Placeless Failure.Static := by
  intro f l h
  cases f with
  | error e => exact h
  | aborted => trivial

/-- A compilation with an answer in `Q`, that fails for no reasons but those of compilations. -/
abbrev Logged.Yields {β : Type} (x : Compile β) (Q : β → Prop) : Prop :=
  x.Ensures (fun _ => True) Q Failure.Static

/-- No rule for the truth of an expression applies, whatever the scope. -/
def Expr.Settled (e : Expr) : Prop := ∀ opt scope, simplerTruth opt .truth scope e = pure none

/-- The static type that the rules give a form, from those of its operands. -/
def Form.computedType : Form → StaticType
  | .contextItem => .of .any .one
  | .comparison style _ left right => comparisonType style left right
  | .step axis test es => (filteredType (stepType axis test) es).getD .empty
  | .path root steps => .of (lastItemType steps) (chainOccurrence root.type.occurrence steps)
  | .relativePath steps => .of (lastItemType steps) (chainOccurrence .one steps)
  | .map es => .make (lastItemType es) (chainOccurrence .one es) (productSize es)
  | .filter root es => (filteredType root.type es).getD .empty
  | .conditional _ yes no => yes.type.union no.type
  | .apply f _ =>
    match f.type.item with
    | .functionOf s => applyType (some s)
    | _ => applyType none
  | .check e target promote => (runtimeCheck e target promote none).type
  | form => form.type

/-- Forms about which nothing is to be known where they are made, but their static type. -/
def Form.IsOrdinary : Form → Prop
  | .contextItem | .function _ | .failure _ | .reference _ | .conditional .. | .path .. | .relativePath _ => False
  | _ => True

def Form.IsLeaf : Form → Prop
  | .literal _ | .position _ | .failure _ => True
  | _ => False

/-- How a demand on the nodes of a source leads to one on the nodes of the compiled expression, in
scopes that fit. -/
structure Transfer {α : Type} (before after : Demand α) (fits : α → Scope → Prop) : Prop where
  enter : before.enter = after.enter
  inline : before.inline = after.inline
  withFocus : ∀ {a scope}, fits a scope → ∀ t, fits a (scope.withFocus t)
  withVariables : ∀ {a scope}, fits a scope →
    ∀ params, fits (after.enter a params) (scope.withVariables params)
  ordinary : ∀ a {form}, form.IsOrdinary → after.node a form form.computedType
  leaf : ∀ {a form τ}, form.IsLeaf → before.node a form τ → after.node a form τ
  contextItem : ∀ a t, after.node a .contextItem (.of t .one)
  path : ∀ {a scope steps}, fits a scope → AllSatisfy after a steps →
    flattenSteps scope steps ≠ [] →
    ∀ root, after.node a (.path root (flattenSteps scope steps))
      (Form.path root (flattenSteps scope steps)).computedType
  relativePath : ∀ {a scope steps}, fits a scope → AllSatisfy after a steps →
    flattenSteps scope steps ≠ [] →
    after.node a (.relativePath (flattenSteps scope steps))
      (Form.relativePath (flattenSteps scope steps)).computedType
  /-- A relative path without steps is the item in focus. -/
  stepless : ∀ {a scope source steps τ}, fits a scope → before.node a (.relativePath source) τ →
    source.length = steps.length → AllSatisfy after a steps → flattenSteps scope steps = [] →
      after.node a .contextItem .anything
  /-- The root of a path may be left out. -/
  rootless : ∀ {a root steps τ}, after.node a (.path root steps) τ →
    before.node a (.relativePath steps) τ
  compiled : ∀ {a scope f τ g} d, fits a scope → before.node a (.function f) τ →
    (f.compile (optimizerWithin d) scope).Gives g →
      after.node a (.function g) (.of (.functionOf g.signature) .one)
  recast : ∀ {a f τ s g}, after.node a (.function f) τ → f.coerce s = .ok g →
    after.node a (.function g) (.of (.functionOf g.signature) .one)
  deferred : ∀ a {e}, e.Static → ∀ τ, after.node a (.failure e) τ
  reference : ∀ {a scope v τ found}, fits a scope → before.node a (.reference v) τ →
    scope.lookup v.name = some found →
    after.node a (.reference found) (.ofSeqType found.type)
  conditional : ∀ {a scope condition}, fits a scope →
    (scope.optimize = true → condition.Settled ∧ condition.isConstant = false) → ∀ yes no : Expr,
      after.node a (.conditional condition yes no) (yes.type.union no.type)
  coerced : ∀ {a name s inner τ}, before.node a (.function (.coerced name s inner)) τ →
    inner.Satisfies after a
  /-- Compiled expressions can be compiled again. -/
  again : ∀ a form τ, after.node a form τ → form.Satisfies after a → before.node a form τ
  inlined : ∀ {a form τ}, before.node a form τ →
    ∀ value, before.node a (form.replaceContext value) τ

/-- An optimizer whose ways back into compilation and simplification do as a transfer says, and that
simplifies truth values until no rule applies. Functions are compiled with it as the transfer
says. -/
structure Optimizer.Transfers {α : Type} (opt : Optimizer) (before after : Demand α)
    (fits : α → Scope → Prop) : Prop where
  compile : ∀ {a scope e}, fits a scope → e.Satisfies before a →
    (opt.compile scope e).Yields (Expr.Satisfies after a)
  simplify : ∀ {a scope e} mode, fits a scope → e.Satisfies after a →
    (opt.simplify mode scope e).Yields (Expr.Satisfies after a)
  settles : ∀ {scope e e'}, scope.optimize = true →
    (opt.simplify .truth scope e).Gives e' → e'.Settled
  function : ∀ {a scope f τ g}, fits a scope → before.node a (.function f) τ →
    (f.compile opt scope).Gives g →
    after.node a (.function g) (.of (.functionOf g.signature) .one)

/-! ### Remarks and failures -/

theorem remark_yields (note : String) : (remark note).Yields fun _ => True := .write trivial

theorem failStatically_yields {β : Type} {Q : β → Prop} {found : String} {expected : SeqType}
    {l : Option Location} : (failStatically found expected l : Compile β).Yields Q :=
    .fail Error.ordinary_staticMismatch.static

theorem failWith_yields {β : Type} {Q : β → Prop} {c : Cause} (h : (Error.of c).Static)
    (l : Option Location) : ((Logged.failWith c).locate l : Compile β).Yields Q :=
    .locate placeless_static l (.fail h)

theorem yields_lift {β : Type} {Q : β → Prop} {x : Except Error β} (hx : Raises Error.Ordinary x)
    (hQ : ∀ b, x = .ok b → Q b) : (Logged.lift x : Compile β).Yields Q :=
    .lift hQ fun e he => (hx e he).static

/-! ### Nodes that are made -/

section Nodes

variable {α : Type} {before after : Demand α} {fits : α → Scope → Prop}
    (H : Transfer before after fits) {a : α}

include H

namespace Transfer

theorem ofForm {e : Expr} (hform : e.form.IsOrdinary) (htype : e.type = e.form.computedType)
    (h : e.form.Satisfies after a) : e.Satisfies after a := by
  obtain ⟨form, τ, l⟩ := e
  obtain rfl : τ = form.computedType := htype
  exact ⟨H.ordinary a hform, h⟩

theorem literal (values : List Atomic) : (Expr.literal values).Satisfies after a :=
  H.ofForm trivial rfl trivial

theorem ofBool (b : Bool) : (Expr.ofBool b).Satisfies after a := H.literal _

theorem ofBoolAt (b : Bool) (l : Option Location) : ((Expr.ofBool b).at? l).Satisfies after a :=
  Expr.satisfies_at?.mpr (H.ofBool b)

theorem empty : Expr.empty.Satisfies after a := H.literal _

theorem ofPositionTest (test : PositionTest) : (Expr.ofPositionTest test).Satisfies after a := by
  cases test with
  | within w => exact H.ofForm trivial rfl trivial
  | never => exact H.ofBool false

theorem call (f : Builtin) {args : List Expr} (h : AllSatisfy after a args) :
    (Expr.call f args).Satisfies after a :=
  H.ofForm trivial rfl h

theorem source {e : Expr} (h : e.Satisfies after a) : e.Satisfies before a :=
  h.weaken H.enter (fun _ _ h => H.inline ▸ h) H.again

end Transfer

omit H in
theorem replace_yields {old new : Expr} (h : new.Satisfies after a) :
    (replace old new).Yields (Expr.Satisfies after a) := by
  have hnew : (new.at? (new.location <|> old.location)).Satisfies after a :=
    Expr.satisfies_at?.mpr h
  unfold replace
  split
  · exact (remark_yields _).bind fun _ _ => .pure hnew
  · exact .pure hnew

theorem defer_yields {e : Error} (he : e.Static) (old : Expr) :
    (defer e old).Yields (Expr.Satisfies after a) :=
  (remark_yields _).bind fun _ _ => .pure ⟨H.deferred a (he.locate _) _, trivial⟩

theorem deferring_yields {old : Expr} {x : Compile Expr} (h : x.Yields (Expr.Satisfies after a)) :
    (deferring old x).Yields (Expr.Satisfies after a) := by
  unfold deferring
  split
  · next log e => exact (defer_yields H (h.failure _ rfl) old).prepend fun _ _ => trivial
  · exact h

/-! ### Constants for the context item -/

omit H

mutual

theorem Expr.satisfies_replaceContext (H : Transfer before after fits) {value : Expr}
    (hvalue : value.Satisfies before a) :
    (e : Expr) → e.Satisfies before a → (e.replaceContext value).Satisfies before a
  | ⟨form, τ, l⟩, h => by
    by_cases hform : form = .contextItem
    · subst hform
      rw [Expr.replaceContext]
      exact Expr.satisfies_at?.mpr hvalue
    · have heq : Expr.replaceContext ⟨form, τ, l⟩ value = ⟨form.replaceContext value, τ, l⟩ := by
        rw [Expr.replaceContext]
        exact hform
      rw [heq]
      exact ⟨H.inlined h.1 value, Form.satisfies_replaceContext H hvalue form h.2⟩

theorem Form.satisfies_replaceContext (H : Transfer before after fits) {value : Expr}
    (hvalue : value.Satisfies before a) :
    (form : Form) → form.Satisfies before a → (form.replaceContext value).Satisfies before a
  | .literal _, h | .function _, h | .contextItem, h | .position _, h | .step _ _ _,
    h | .relativePath _, h | .map [], h
  | .reference _, h | .failure _, h => by
    rw [Form.replaceContext]
    exact h
    all_goals exact nofun
  | .conjunction es, h | .disjunction es, h | .call _ es, h => by
    rw [Form.replaceContext]
    exact allSatisfy_replaceContext H hvalue es h
  | .comparison _ _ e d, h | .containsText e d, h => by
    rw [Form.replaceContext]
    exact ⟨Expr.satisfies_replaceContext H hvalue e h.1,
      Expr.satisfies_replaceContext H hvalue d h.2⟩
  | .path e es, h | .filter e es, h | .map (e :: es), h => by
    rw [Form.replaceContext]
    exact ⟨Expr.satisfies_replaceContext H hvalue e h.1, h.2⟩
  | .conditional condition yes no, h => by
    rw [Form.replaceContext]
    exact ⟨Expr.satisfies_replaceContext H hvalue condition h.1,
      Expr.satisfies_replaceContext H hvalue yes h.2.1,
        Expr.satisfies_replaceContext H hvalue no h.2.2⟩
  | .apply e es, h => by
    rw [Form.replaceContext]
    exact ⟨Expr.satisfies_replaceContext H hvalue e h.1, allSatisfy_replaceContext H hvalue es h.2⟩
  | .check e _ _, h => by
    rw [Form.replaceContext]
    exact Expr.satisfies_replaceContext H hvalue e h

theorem allSatisfy_replaceContext (H : Transfer before after fits) {value : Expr}
    (hvalue : value.Satisfies before a) :
    (es : List Expr) → AllSatisfy before a es → AllSatisfy before a (replaceContextAll value es)
  | [], _ => trivial
  | e :: es, h =>
    ⟨Expr.satisfies_replaceContext H hvalue e h.1, allSatisfy_replaceContext H hvalue es h.2⟩

end

end Nodes

end TreeQuery
