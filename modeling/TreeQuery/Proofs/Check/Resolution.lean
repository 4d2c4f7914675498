import TreeQuery.Query
import TreeQuery.Proofs.Check.Streaming
import TreeQuery.Proofs.Compile.Expression
import TreeQuery.Proofs.Eval.Location
import TreeQuery.Proofs.Typing.Checks
import TreeQuery.Proofs.Typing.Preorder
import TreeQuery.Proofs.Typing.Soundness
/-!
# Type checks that are resolved early

Resolving the check of a compiled expression keeps what evaluation comes to: the result ends with a
value if and only if the check at run time does, and with the same one (`Expr.checkAs_preserves`).
The static types of the branches that evaluation takes must be sound for this, not only that of the
whole (`Expr.checkAs_unsound_branch`).

A check is rejected for a branch of the expression that never passes it (`Expr.checkAs_rejected`).
Where the expression is no conditional, that is the expression itself, but of a conditional the
other branch may well pass (`Expr.checkAs_rejects_passing`).

A check moves into the branches of a conditional and must find its condition unchanged. So compiled
conditions are settled: they were simplified until no rule applied, and are so once more in vain.
-/

namespace TreeQuery

/-! ### Compiled conditionals and functions -/

/-- The conditions of conditionals are settled and not constant, and functions have the static type
of their signature. Nothing is demanded of function bodies, where the state is `false`. -/
def Demand.resolved : Demand Bool where
  enter _ _ := false
  node outside form τ := outside = true → match form with
    | .conditional condition _ _ => condition.Settled ∧ condition.isConstant = false
    | .function f => τ = .of (.functionOf f.signature) .one
    | _ => True

theorem transfer_resolved :
    Transfer { Demand.resolved with node := fun _ _ _ => True } .resolved fun _ scope =>
    scope.optimize = true where
  enter := rfl
  inline := rfl
  withFocus h _ := h
  withVariables h _ := h
  ordinary a form h := fun _ => by
    cases form <;> trivial
  leaf {a form τ} hleaf _ := fun _ => by
    cases form <;> trivial
  contextItem _ _ _ := trivial
  path _ _ _ _ _ := trivial
  relativePath _ _ _ _ := trivial
  stepless _ _ _ _ _ _ := trivial
  rootless _ := trivial
  compiled _ _ _ _ _ := rfl
  recast _ _ _ := rfl
  deferred _ _ _ _ _ := trivial
  reference _ _ _ _ := trivial
  conditional hscope h _ _ _ := h hscope
  coerced {a name s inner τ} _ := by
    have idle : Demand.resolved.Idle (· = false) :=
      ⟨fun _ _ _ => rfl, fun _ _ => trivial, fun _ _ _ ha h => Bool.noConfusion (ha.symm.trans h)⟩
    exact FunctionItem.satisfies_of_enter idle (fun _ => rfl) inner
  again _ _ _ _ _ := trivial
  inlined _ _ := trivial

theorem Expr.compile_resolved {d : Nat} {scope : Scope} (hscope : scope.optimize = true)
    {source e : Expr} (h : (source.compile (optimizerWithin d) scope).Gives e) :
    e.Satisfies .resolved true := by
  have H := transfer_resolved
  have idle : Demand.Idle { Demand.resolved with node := fun _ _ _ => True } fun _ => True :=
    ⟨fun _ _ _ => trivial, fun _ _ => trivial, fun _ _ _ _ => trivial⟩
  have hsource := Expr.satisfies_of_idle idle (a := true) trivial source
  exact (Expr.compile_yields H (optimizerWithin_transfers H d) source hscope hsource).answer e h

/-- The rules for a conditional do nothing to one that was compiled, if they come to their end. -/
theorem optimizeConditional_settled (d : Nat) (scope : Scope) {condition : Expr} (yes no : Expr)
    (l : Option Location) (hsettled : condition.Settled)
    (hconstant : condition.isConstant = false) :
    optimizeConditional (optimizerWithin d) scope condition yes no l = pure
      ⟨.conditional condition yes no, yes.type.union no.type, l⟩ ∨
      optimizeConditional (optimizerWithin d) scope condition yes no l = Logged.fail .aborted := by
  cases d with
  | zero => exact .inr rfl
  | succ d =>
    left
    simp only [optimizeConditional, hsettled.simplify d scope, Logged.pure_bind, hconstant,
      Bool.and_false, if_neg Bool.false_ne_true]

/-! ### What passes a check -/

variable {call : Caller} {env : Env} {target : SeqType} {promote : Bool}

def Expr.Passes (call : Caller) (env : Env) (target : SeqType) (promote : Bool) (e : Expr)
    (items : List Item) : Prop :=
  ∃ source, (e.value call env).Gives source ∧
    (checkSequence env.forest target promote none source).Gives items

theorem runtimeCheck_value_iff {e : Expr} {l : Option Location} {items : List Item} :
    ((runtimeCheck e target promote l).value call env).Gives items ↔
    e.Passes call env target promote items := by
  simp only [runtimeCheck, Expr.value, Logged.gives_bind, Expr.Passes]
  constructor
  · rintro ⟨source, hsource, h⟩
    exact ⟨source, hsource, checkSequence_place _ _ h⟩
  · rintro ⟨source, hsource, h⟩
    exact ⟨source, hsource, checkSequence_place _ _ h⟩

/-- A value that is as its static type says passes the check of a type that every such value
conforms to. -/
theorem StaticType.Describes.passes {forest : Forest} {τ : StaticType} {items : List Item}
    {l : Option Location} (h : τ.Describes forest items) (hinstance : τ.instanceOf target = true) :
    (checkSequence forest target promote l items).Gives items :=
    (h.admits.of_instanceOf hinstance).checked

theorem Expr.passes_of_instanceOf {e : Expr} (hsound : e.SoundAt call env)
    (hinstance : e.type.instanceOf target = true) {items : List Item} :
    (e.value call env).Gives items ↔ e.Passes call env target promote items := by
  have describes {items : List Item} (h : (e.value call env).Gives items) :
      e.type.Describes env.forest items :=
    hsound items (Expr.value_iff_drained.mp h)
  constructor
  · intro h
    exact ⟨items, h, (describes h).passes hinstance⟩
  · rintro ⟨source, hsource, h⟩
    obtain rfl := Logged.Gives.unique h ((describes hsource).passes hinstance)
    exact hsource

/-! ### Constants -/

theorem conformItem_atomic {forest : Forest} {l : Option Location} {v : Atomic} {item : Item} :
    (conformItem forest target promote l (.atomic v)).Gives item ↔
      ∃ w, checkAtomic target promote v = .ok w ∧ .atomic w = item := by
  unfold conformItem checkAtomic
  cases hadmits : target.item.admits v with
  | true => simp [Item.isInstance, hadmits]
  | false =>
    simp only [Item.isInstance, hadmits, if_neg Bool.false_ne_true]
    cases promote with
    | false =>
      simp only [if_neg Bool.false_ne_true, Logged.pure_bind, Logged.gives_fail, false_iff]
      rintro ⟨w, hw, -⟩
      split at hw <;> cases hw
    | true =>
      simp only [if_true, Logged.gives_bind]
      cases target.item with
      | atomic t =>
        simp only [Item.promote, Logged.gives_lift]
        cases hv : v.promote t with
        | error e => simp [Except.map]
        | ok w => cases w <;> simp [Except.map]
      | _ => simp [Item.promote]

theorem mapM_conformItem_atomic {forest : Forest} {l : Option Location} {values : List Atomic}
    {items : List Item} :
    ((values.map Item.atomic).mapM (conformItem forest target promote l)).Gives items ↔
      ∃ ws, values.mapM (checkAtomic target promote) = .ok ws ∧ ws.map Item.atomic = items := by
  induction values generalizing items with
  | nil =>
    simp only [List.map_nil, List.mapM_nil, Logged.gives_pure]
    constructor
    · intro h
      exact ⟨[], rfl, h⟩
    · rintro ⟨ws, hws, rfl⟩
      obtain rfl : [] = ws := Except.ok.inj hws
      rfl
  | cons v values ih =>
    simp only [List.map_cons, List.mapM_cons, Logged.gives_bind, Logged.gives_pure,
      conformItem_atomic, ih]
    cases hv : checkAtomic target promote v with
    | error e => simp [bind, Except.bind]
    | ok w =>
      cases hrest : values.mapM (checkAtomic target promote) with
      | error e => simp [bind, Except.bind]
      | ok ws => simp [bind, Except.bind, pure, Except.pure]

theorem checkSequence_atomic {forest : Forest} {l : Option Location} {values : List Atomic}
    {items : List Item} :
    (checkSequence forest target promote l (values.map Item.atomic)).Gives items ↔
      ∃ ws, checkAtomics values target promote = .ok ws ∧ ws.map Item.atomic = items := by
  unfold checkSequence checkAtomics
  rw [List.length_map]
  cases target.occurrence.admits values.length with
  | true => simpa only [if_true] using mapM_conformItem_atomic
  | false => simp

theorem Expr.value_literal {values : List Atomic} {τ : StaticType} {l : Option Location}
    {items : List Item} : (Expr.value call env ⟨.literal values, τ, l⟩).Gives items ↔
      values.length ≤ memoryLimit ∧ values.map Item.atomic = items := by
  rw [Expr.value_iff_drained, Expr.drained]
  simp only [Expr.iterate, Form.iterate, Logged.gives_bind, Logged.gives_locate, Logged.gives_pure,
    exists_eq_left', Cursor.drain_iff_clean, Cursor.clean_ofList, Cursor.delivered_ofList, true_and]
  constructor
  · rintro ⟨rfl, hlimit⟩
    exact ⟨by simpa using hlimit, rfl⟩
  · rintro ⟨hlimit, rfl⟩
    exact ⟨rfl, by simpa using hlimit⟩

theorem Expr.passes_literal {values : List Atomic} {τ : StaticType} {l : Option Location}
    {items : List Item} : Expr.Passes call env target promote ⟨.literal values, τ, l⟩ items ↔
      values.length ≤ memoryLimit ∧ ∃ ws, checkAtomics values target promote = .ok ws ∧
      ws.map Item.atomic = items := by
  simp only [Expr.Passes, Expr.value_literal]
  constructor
  · rintro ⟨_, ⟨hlimit, rfl⟩, h⟩
    exact ⟨hlimit, checkSequence_atomic.mp h⟩
  · rintro ⟨hlimit, h⟩
    exact ⟨_, ⟨hlimit, rfl⟩, checkSequence_atomic.mpr h⟩

/-! ### Functions -/

theorem Expr.value_function {f : FunctionItem} {τ : StaticType} {l : Option Location}
    {items : List Item} : (Expr.value call env ⟨.function f, τ, l⟩).Gives items ↔
    [.function f] = items := by
  rw [Expr.value_iff_drained, Expr.drained]
  simp only [Expr.iterate, Form.iterate, Logged.gives_bind, Logged.gives_locate, Logged.gives_pure,
    exists_eq_left', Cursor.drain_iff_clean, Cursor.single, Cursor.clean_ofList,
    Cursor.delivered_ofList, true_and]
  constructor
  · rintro ⟨rfl, -⟩
    rfl
  · rintro rfl
    have room : 1 ≤ memoryLimit := by decide
    exact ⟨rfl, room⟩

theorem Expr.passes_function {f : FunctionItem} {τ : StaticType} {l : Option Location}
    {items : List Item} : Expr.Passes call env target promote ⟨.function f, τ, l⟩ items ↔
      target.occurrence.admits 1 = true ∧
      ∃ item, (conformItem env.forest target promote none (.function f)).Gives item ∧
        [item] = items := by
  simp only [Expr.Passes, Expr.value_function, exists_eq_left', checkSequence,
    List.length_singleton]
  cases target.occurrence.admits 1 with
  | true => simp [List.mapM_cons]
  | false => simp

theorem Signature.arity_of_instanceOf {s t : Signature} (h : s.instanceOf t = true) :
    s.arity = t.arity := by
  obtain ⟨ps, r⟩ := s
  obtain ⟨qs, r'⟩ := t
  simp only [Signature.instanceOf, Signature.relates, Bool.and_eq_true, beq_iff_eq] at h
  exact h.1.1

theorem conformItem_function {forest : Forest} {l : Option Location} {f : FunctionItem}
    {s : Signature} {item : Item} (hs : target.item = .functionOf s) :
    (conformItem forest target true l (.function f)).Gives item ↔ ∃ g, f.coerce s = .ok g ∧
    .function g = item := by
  simp only [conformItem, Item.isInstance, hs, ItemType.admitsFunction, if_true]
  cases hsignature : f.signature.instanceOf s with
  | true =>
    have harity : f.arity = s.arity := Signature.arity_of_instanceOf hsignature
    simp [FunctionItem.coerce, hsignature, harity]
  | false =>
    simp only [if_neg Bool.false_ne_true, Item.promote, hsignature, Bool.not_false, if_true,
      Logged.gives_bind, Logged.gives_lift, Logged.gives_pure]
    constructor
    · rintro ⟨_, ⟨g, hg, -, -, rfl⟩, h⟩
      exact ⟨g, hg, Logged.gives_pure.mp h⟩
    · rintro ⟨g, hg, rfl⟩
      exact ⟨some (.function g), ⟨g, hg, (), rfl, rfl⟩, rfl⟩

/-! ### Conditionals -/

theorem Expr.value_conditional {condition yes no : Expr} {τ : StaticType} {l : Option Location}
    {items : List Item} : (Expr.value call env ⟨.conditional condition yes no, τ, l⟩).Gives items ↔
      ∃ b, (condition.truth call env).Gives b ∧
      ((if b then yes else no).value call env).Gives items := by
  simp only [Expr.value_iff_drained, Expr.drained]
  rw [Expr.iterate]
  simp only [Form.iterate, Logged.gives_bind, Logged.gives_locate]
  constructor
  · rintro ⟨c, ⟨b, hb, hc⟩, hitems⟩
    refine ⟨b, hb, c, ?_, hitems⟩
    cases b <;> exact hc
  · rintro ⟨b, hb, c, hc, hitems⟩
    refine ⟨c, ⟨b, hb, ?_⟩, hitems⟩
    cases b <;> exact hc

theorem Expr.passes_conditional {condition yes no : Expr} {τ : StaticType} {l : Option Location}
    {items : List Item} :
    Expr.Passes call env target promote ⟨.conditional condition yes no, τ, l⟩ items ↔
      ∃ b, (condition.truth call env).Gives b ∧
      (if b then yes else no).Passes call env target promote items := by
  simp only [Expr.Passes, Expr.value_conditional]
  constructor
  · rintro ⟨source, ⟨b, hb, hsource⟩, h⟩
    exact ⟨b, hb, source, hsource, h⟩
  · rintro ⟨b, hb, source, hsource, h⟩
    exact ⟨source, ⟨b, hb, hsource⟩, h⟩

/-- The static types of an expression and of the branches that evaluation goes into describe the
values there. -/
def Expr.SoundInBranches (call : Caller) (env : Env) : Expr → Prop
  | ⟨.conditional condition yes no, τ, l⟩ =>
    Expr.SoundAt call env ⟨.conditional condition yes no, τ, l⟩ ∧
      ((condition.truth call env).Gives true → yes.SoundInBranches call env) ∧
      ((condition.truth call env).Gives false → no.SoundInBranches call env)
  | e => e.SoundAt call env

theorem Expr.SoundInBranches.soundAt {e : Expr} (h : e.SoundInBranches call env) :
    e.SoundAt call env := by
  obtain ⟨form, τ, l⟩ := e
  cases form <;> simp only [Expr.SoundInBranches] at h
  case conditional => exact h.1
  all_goals exact h

/-! ### Checks that are kept, replaced or moved into branches -/

section Resolve

variable {d : Nat} {scope : Scope} {l : Option Location}

theorem checkLiteral_passes {e' : Expr} {values : List Atomic} {τ : StaticType}
    {place : Option Location}
    (h : (checkLiteral ⟨.literal values, τ, place⟩ values target promote l).Gives e')
    (items : List Item) : (e'.value call env).Gives items ↔
    Expr.Passes call env target promote ⟨.literal values, τ, place⟩ items := by
  unfold checkLiteral at h
  split at h
  · next ws hws =>
    obtain rfl := replace_gives.mp h
    obtain ⟨hlength, -⟩ := checkAtomics_ok hws
    rw [Expr.passes_literal, Expr.literal, Expr.of, Expr.at?, Expr.at?, Expr.value_literal, hlength]
    simp [hws]
  · exact absurd h Logged.gives_fail

theorem checkFunction_passes {e' : Expr} {f : FunctionItem} {τ : StaticType}
    {place : Option Location}
    (h : (checkFunction ⟨.function f, τ, place⟩ f target promote l).Gives e') (items : List Item) :
    (e'.value call env).Gives items ↔
    Expr.Passes call env target promote ⟨.function f, τ, place⟩ items := by
  unfold checkFunction at h
  split at h
  · next s hs =>
    simp only [Logged.gives_ite, gives_failStatically, and_false, false_or, coerceFunction,
      Logged.gives_bind, Logged.gives_lift, gives_remark, Logged.gives_pure, Bool.or_eq_true,
      Bool.not_eq_true', not_or, Bool.not_eq_false] at h
    obtain ⟨⟨hadmits, rfl⟩, g, ⟨g', hg, -, -, rfl⟩, rfl⟩ := h
    rw [Expr.passes_function, Expr.of, Expr.at?, Expr.value_function]
    simp only [hadmits, true_and, conformItem_function hs, hg, Except.ok.injEq]
    constructor
    · rintro rfl
      exact ⟨_, ⟨g', rfl, rfl⟩, rfl⟩
    · rintro ⟨_, ⟨g, rfl, rfl⟩, rfl⟩
      rfl
  · exact absurd h gives_failStatically

/-- What a check is resolved to ends with the values that pass the check. -/
theorem Expr.checkAs_passes (hscope : scope.optimize = true) :
    {e e' : Expr} → {l : Option Location} →
    (e.checkAs (optimizerWithin d) scope target promote l).Gives e' → e.Satisfies .resolved true →
    e.SoundInBranches call env → (items : List Item) →
      ((e'.value call env).Gives items ↔ e.Passes call env target promote items)
  | ⟨form, τ, place⟩, e', l, h, hresolved, hsound, items => by
    have redundant (hinstance : τ.instanceOf target = true) :
      (Expr.value call env ⟨form, τ, place⟩).Gives items ↔
        Expr.Passes call env target promote ⟨form, τ, place⟩ items :=
          Expr.passes_of_instanceOf hsound.soundAt hinstance
    unfold Expr.checkAs at h
    simp only [hscope, Bool.not_true, if_neg Bool.false_ne_true] at h
    split at h
    · next hinstance =>
      simp only [Logged.gives_bind, gives_remark, Logged.gives_pure] at h
      obtain ⟨-, -, rfl⟩ := h
      exact redundant hinstance
    · split at h
      · exact checkFunction_passes h items
      · exact checkLiteral_passes h items
      · next condition yes no =>
        simp only [Logged.gives_ite, Logged.gives_bind, gives_failStatically,
          and_false, false_or] at h
        obtain ⟨-, yes', hyes, no', hno, h⟩ := h
        -- the condition was simplified when it was compiled: no rule applies again, and the check
        -- only goes into the branches
        obtain ⟨hsettled, hconstant⟩ := hresolved.1 rfl
        simp only [Expr.SoundInBranches] at hsound
        obtain heq | heq :=
          optimizeConditional_settled d scope yes' no' l hsettled hconstant <;> rw [heq] at h
        case inr => exact absurd h Logged.gives_fail
        obtain rfl := Logged.gives_pure.mp h
        rw [Expr.value_conditional, Expr.passes_conditional]
        refine exists_congr fun b => and_congr_right fun hb => ?_
        cases b with
        | true => exact Expr.checkAs_passes hscope hyes hresolved.2.2.1 (hsound.2.1 hb) items
        | false => exact Expr.checkAs_passes hscope hno hresolved.2.2.2 (hsound.2.2 hb) items
      · simp only [Logged.gives_ite, gives_failStatically, Logged.gives_pure,
          and_false, false_or] at h
        obtain ⟨-, rfl⟩ := h
        exact runtimeCheck_value_iff

end Resolve

theorem Expr.Annotated.soundInBranches {d : Nat} {Γ : List Variable} {K : Knowledge} {env : Env}
    (henv : env.Fits Γ K) : (e : Expr) → e.Annotated Γ K → e.SoundInBranches (callWithin d) env
  | ⟨form, τ, l⟩, he => by
    have sound : Expr.SoundAt (callWithin d) env ⟨form, τ, l⟩ :=
      he.soundAt (callWithin_sound d) henv
    cases form with
    | conditional condition yes no =>
      simp only [Expr.Annotated, Form.Annotated] at he
      exact ⟨sound, fun _ => Expr.Annotated.soundInBranches henv yes he.2.2.1,
        fun _ => Expr.Annotated.soundInBranches henv no he.2.2.2⟩
    | _ => exact sound

theorem Query.start_soundInBranches {s : StaticContext} {e : Expr} {q : Query} {c : Context}
    (he : e.Plain) (hq : compile s e = .ok q) (hitem : c.item = none)
    (hglobals : ∀ name value, c.globals.lookup name = some value →
      ∀ item ∈ value, ∀ f, item ≠ .function f) (d : Nat) :
    q.expr.SoundInBranches (callWithin d) (.ofContext c) := by
  obtain ⟨Γ, K, henv, hannotated⟩ := Query.start_typed he hq (by simp [hitem]) hglobals
  exact hannotated.soundInBranches henv

/-- Resolving the check of a compiled expression keeps its outcome: where the static types of the
expression are sound, what it is resolved to ends with a value if and only if the check at run time
ends with it, as a whole value and as a cursor. -/
theorem Expr.checkAs_preserves {d : Nat} {scope : Scope} (hscope : scope.optimize = true)
    {source e e' : Expr} (hcompiled : (source.compile (optimizerWithin d) scope).Gives e)
    {target : SeqType} {promote : Bool} {l : Option Location}
    (hresolved : (e.checkAs (optimizerWithin d) scope target promote l).Gives e') {depth : Nat}
    {env : Env} (hsound : e.SoundInBranches (callWithin depth) env) (items : List Item) :
    ((e'.value (callWithin depth) env).Gives items ↔
      ((runtimeCheck e target promote l).value (callWithin depth) env).Gives items) ∧
    ((e'.drained (callWithin depth) env).Gives items ↔
      ((runtimeCheck e target promote l).drained (callWithin depth) env).Gives items) := by
  have hpasses := Expr.checkAs_passes hscope hresolved
    (Expr.compile_resolved hscope hcompiled) hsound items
  have hvalue : (e'.value (callWithin depth) env).Gives items ↔
      ((runtimeCheck e target promote l).value (callWithin depth) env).Gives items :=
        hpasses.trans runtimeCheck_value_iff.symm
  exact ⟨hvalue, Expr.value_iff_drained.symm.trans (hvalue.trans Expr.value_iff_drained)⟩

/-- A check moves into the branches of a conditional on a variable: the constant passes it at once,
and the other branch is checked at run time. -/
theorem Expr.checkAs_preserves_branches :
    let b : Variable := { name := .plain "b" }
    let source : Expr := .of (.conditional (.of (.reference b)) (.ofInt 1) (.of (.reference b)))
    let s : StaticContext := { externals := [b], optimizeDepth := 2 }
    let c : Context :=
      { forest := .empty false, globals := [(.plain "b", [.atomic (.boolean true)])] }
    let target : SeqType := .one (.atomic .integer)
    ∃ e e', (source.compile s.optimizer s.scope).Gives e ∧
      (e.checkAs s.optimizer s.scope target false none).Gives e' ∧
      e'.form = .conditional (.of (.reference b)) (.ofInt 1)
        (runtimeCheck (.of (.reference b)) target false none) ∧
      (e'.value (callWithin 1) (.ofContext c)).Gives [.atomic (.integer 1)] ∧
      ((runtimeCheck e target false none).value (callWithin 1) (.ofContext c)).Gives
        [.atomic (.integer 1)] := by
  intro b source s c target
  have plain : source.Plain := ⟨trivial, ⟨by decide, .inl rfl⟩, trivial⟩
  let e : Expr :=
    ⟨.conditional (.of (.reference b)) (.ofInt 1) (.of (.reference b)), .of .any .zeroOrMore, none⟩
  let e' : Expr :=
    ⟨.conditional (.of (.reference b)) (.ofInt 1)
    (runtimeCheck (.of (.reference b)) target false none),
    .of (.atomic .integer) .one, none⟩
  have compiled : (source.compile s.optimizer s.scope).Gives e := rfl
  have resolved : (e.checkAs s.optimizer s.scope target false none).Gives e' := rfl
  have sound : e.SoundInBranches (callWithin 1) (.ofContext c) := by
    refine Query.start_soundInBranches (s := s) (q := ⟨e, []⟩) plain rfl rfl ?_ 1
    intro name value hvalue item hitem
    simp only [c, List.lookup_cons, List.lookup_nil] at hvalue
    split at hvalue
    · obtain rfl := Option.some.inj hvalue
      obtain rfl := List.mem_singleton.mp hitem
      intro f hf
      cases hf
    · cases hvalue
  have ended : (e'.value (callWithin 1) (.ofContext c)).Gives [.atomic (.integer 1)] := rfl
  exact ⟨e, e', compiled, resolved, rfl, ended,
    (Expr.checkAs_preserves rfl compiled resolved sound _).1.mp ended⟩

/-- A conditional gives a string where its check fails: the type of the branch taken does not
describe the string, so the check is dropped there, while the type of the conditional, whose other
branch may be anything, describes every value. -/
theorem Expr.checkAs_unsound_branch :
    let b : Variable := { name := .plain "b" }
    let s : Variable := { name := .plain "s" }
    let source : Expr := .of (.conditional (.of (.reference b)) .contextItem (.of (.reference s)))
    let Γ : StaticContext :=
      { item := some (.atomic .integer), externals := [b, s], optimizeDepth := 2 }
    let x : Item := .atomic (.string "x")
    let c : Context :=
      { forest := .empty false
        item := some x
        globals := [(.plain "b", [.atomic (.boolean true)]), (.plain "s", [])] }
    let target : SeqType := ⟨.atomic .integer, .zeroOrOne⟩
    ∃ e e' err, (source.compile Γ.optimizer Γ.scope).Gives e ∧
      (e.checkAs Γ.optimizer Γ.scope target false none).Gives e' ∧
      e.SoundAt (callWithin 1) (.ofContext c) ∧ (e'.value (callWithin 1) (.ofContext c)).Gives [x] ∧
      ((runtimeCheck e target false none).value (callWithin 1) (.ofContext c)).Fails
        (.error err) := by
  intro b s source Γ x c target
  let yes : Expr := ⟨.contextItem, .of (.atomic .integer) .one, none⟩
  let e : Expr :=
    ⟨.conditional (.of (.reference b)) yes (.of (.reference s)), .of .any .zeroOrMore, none⟩
  let e' : Expr :=
    ⟨.conditional (.of (.reference b)) yes (runtimeCheck (.of (.reference s)) target false none),
      .of (.atomic .integer) .zeroOrOne, none⟩
  have sound : e.SoundAt (callWithin 1) (.ofContext c) := fun items _ =>
    { item := fun _ _ => Item.isInstance_any
      occurrence := rfl
      size := by simp [e, StaticType.of] }
  exact ⟨e, e', _, rfl, rfl, sound, rfl, rfl⟩

/-! ### Checks that are rejected -/

/-- An expression and the branches of the conditionals that it is made of. -/
inductive Expr.Branch : Expr → Expr → Prop
  | refl (e : Expr) : Branch e e
  | yes {condition yes no b : Expr} {τ : StaticType} {l : Option Location} : yes.Branch b →
      Branch ⟨.conditional condition yes no, τ, l⟩ b
  | no {condition yes no b : Expr} {τ : StaticType} {l : Option Location} : no.Branch b →
      Branch ⟨.conditional condition yes no, τ, l⟩ b

/-- The branches that evaluation goes into, down to one of them. -/
inductive Expr.Takes (call : Caller) (env : Env) : Expr → Expr → Prop
  | refl (e : Expr) : Takes call env e e
  | yes {condition yes no b : Expr} {τ : StaticType} {l : Option Location} :
    (condition.truth call env).Gives true →
      Takes call env yes b → Takes call env ⟨.conditional condition yes no, τ, l⟩ b
  | no {condition yes no b : Expr} {τ : StaticType} {l : Option Location} :
    (condition.truth call env).Gives false →
      Takes call env no b → Takes call env ⟨.conditional condition yes no, τ, l⟩ b

theorem Expr.Takes.passes {e b : Expr} (h : Expr.Takes call env e b) {items : List Item}
    (he : e.Passes call env target promote items) : b.Passes call env target promote items := by
  induction h with
  | refl e => exact he
  | yes htruth _ ih =>
    obtain ⟨b, hb, he⟩ := Expr.passes_conditional.mp he
    obtain rfl := htruth.unique hb
    exact ih he
  | no htruth _ ih =>
    obtain ⟨b, hb, he⟩ := Expr.passes_conditional.mp he
    obtain rfl := htruth.unique hb
    exact ih he

/-- Whether no value of an expression with a sound static type passes a check, wherever it is
evaluated. -/
def Expr.NeverPasses (target : SeqType) (promote : Bool) (e : Expr) : Prop :=
  ∀ call env, e.SoundAt call env → ∀ items, ¬e.Passes call env target promote items

theorem Occurrence.intersect_isSome {a b : Occurrence} {n : Nat} (ha : a.admits n = true)
    (hb : b.admits n = true) : (a.intersect b).isSome = true := by
  rcases n with _ | _ | n <;> cases a <;> cases b <;>
    simp_all [admits, min, max, intersect, ofBounds?]

theorem Expr.neverPasses_of_neverConforms {e : Expr} (h : neverConforms e.type target = true) :
    e.NeverPasses target promote := by
  rintro call env hsound items ⟨source, hsource, hpasses⟩
  have hdescribes := hsound source (Expr.value_iff_drained.mp hsource)
  obtain ⟨hlength, hadmits, -⟩ := checkSequence_gives hpasses
  have hsome := Occurrence.intersect_isSome hdescribes.occurrence (hlength ▸ hadmits)
  simp only [neverConforms, Bool.and_eq_true, Option.isNone_iff_eq_none] at h
  simp [h.2] at hsome

theorem Expr.neverPasses_literal {values : List Atomic} {e : Error}
    (h : checkAtomics values target promote = .error e) (τ : StaticType) (l : Option Location) :
    Expr.NeverPasses target promote ⟨.literal values, τ, l⟩ := by
  intro call env _ items hpasses
  obtain ⟨-, ws, hws, -⟩ := Expr.passes_literal.mp hpasses
  cases h.symm.trans hws

/-- A function item passes no check but that of a type it is an instance of, or that it can be given
the signature of. -/
theorem Expr.neverPasses_function {f : FunctionItem} {place l : Option Location} {e : Expr}
    {err : Error}
    (hinstance : StaticType.instanceOf (.of (.functionOf f.signature) .one) target ≠ true)
    (h : (checkFunction e f target promote l).Fails (.error err)) :
    Expr.NeverPasses target promote ⟨.function f, .of (.functionOf f.signature) .one, place⟩ := by
  intro call env _ items hpasses
  obtain ⟨hadmits, item, hitem, -⟩ := Expr.passes_function.mp hpasses
  -- the item is none of the type, so it was promoted, and to a signature
  have hother : (Item.function f).isInstance env.forest target.item ≠ true := by
    intro h
    refine hinstance (SeqType.instanceOf_iff.mpr ⟨?_, .inr (Item.isInstance_iff.mp h)⟩)
    exact Occurrence.ofSize_instanceOf (n := 1) hadmits
  unfold checkFunction at h
  cases htarget : target.item with
  | functionOf s =>
    simp only [htarget, hadmits, Bool.not_true, Bool.false_or, Bool.not_eq_true'] at h
    cases promote with
    | false => simp [conformItem, hother] at hitem
    | true =>
      obtain ⟨g, hg, -⟩ := (conformItem_function htarget).mp hitem
      simp [coerceFunction, hg, remark] at h
  | _ =>
    rw [conformItem, if_neg hother] at hitem
    cases promote <;> simp [htarget, Item.promote] at hitem

/-- A check is rejected for a branch that never passes it. -/
theorem Expr.checkAs_fails {d : Nat} {scope : Scope} (hscope : scope.optimize = true)
    {err : Error} : {e : Expr} →
    {l : Option Location} →
    (e.checkAs (optimizerWithin d) scope target promote l).Fails (.error err) →
    e.Satisfies .resolved true → ∃ b, e.Branch b ∧ b.NeverPasses target promote
  | ⟨form, τ, place⟩, l, h, hresolved => by
    unfold Expr.checkAs at h
    simp only [hscope, Bool.not_true, if_neg Bool.false_ne_true] at h
    split at h
    · simp [remark] at h
    · next hinstance =>
      split at h
      · next f =>
        obtain rfl : τ = .of (.functionOf f.signature) .one := hresolved.1 rfl
        exact ⟨_, .refl _, Expr.neverPasses_function hinstance h⟩
      · next values =>
        unfold checkLiteral at h
        split at h
        · unfold replace at h
          split at h <;> simp [remark] at h
        · next hvalues => exact ⟨_, .refl _, Expr.neverPasses_literal hvalues τ place⟩
      · next condition yes no =>
        split at h
        · next hnever => exact ⟨_, .refl _, Expr.neverPasses_of_neverConforms hnever⟩
        · simp only [Logged.fails_bind] at h
          obtain h | ⟨yes', -, h | ⟨no', -, h⟩⟩ := h
          · obtain ⟨b, hb, hnever⟩ := Expr.checkAs_fails hscope h hresolved.2.2.1
            exact ⟨b, .yes hb, hnever⟩
          · obtain ⟨b, hb, hnever⟩ := Expr.checkAs_fails hscope h hresolved.2.2.2
            exact ⟨b, .no hb, hnever⟩
          · -- with both branches resolved the conditional itself is not rejected
            obtain ⟨hsettled, hconstant⟩ := hresolved.1 rfl
            obtain heq | heq :=
              optimizeConditional_settled d scope yes' no' l hsettled hconstant <;>
              simp [heq] at h
      · split at h
        · next hnever => exact ⟨_, .refl _, Expr.neverPasses_of_neverConforms hnever⟩
        · simp at h

/-- The check of a conditional is rejected for one of its branches, though evaluation may take the
other one and pass. -/
theorem Expr.checkAs_rejects_passing :
    let b : Variable := { name := .plain "b" }
    let source : Expr := .of (.conditional (.of (.reference b)) (.ofInt 1) (.literal [.string "x"]))
    let s : StaticContext := { externals := [b], optimizeDepth := 2 }
    let c : Context :=
      { forest := .empty false, globals := [(.plain "b", [.atomic (.boolean true)])] }
    let target : SeqType := .one (.atomic .integer)
    ∃ e err, (source.compile s.optimizer s.scope).Gives e ∧
      (e.checkAs s.optimizer s.scope target false none).Fails (.error err) ∧
      e.SoundInBranches (callWithin 1) (.ofContext c) ∧
      ((runtimeCheck e target false none).value (callWithin 1) (.ofContext c)).Gives
        [.atomic (.integer 1)] := by
  intro b source s c target
  have plain : source.Plain := ⟨trivial, ⟨by decide, .inl rfl⟩, ⟨by decide, .inl rfl⟩⟩
  let e : Expr :=
    ⟨.conditional (.of (.reference b)) (.ofInt 1) (.literal [.string "x"]),
      .of (.atomic .anyAtomic) .one, none⟩
  have sound : e.SoundInBranches (callWithin 1) (.ofContext c) := by
    refine Query.start_soundInBranches (s := s) (q := ⟨e, []⟩) plain rfl rfl ?_ 1
    intro name value hvalue item hitem
    simp only [c, List.lookup_cons, List.lookup_nil] at hvalue
    split at hvalue
    · obtain rfl := Option.some.inj hvalue
      obtain rfl := List.mem_singleton.mp hitem
      intro f hf
      cases hf
    · cases hvalue
  exact ⟨e, _, rfl, rfl, sound, rfl⟩

/-- A check of a compiled expression is rejected only for a branch that can never pass: one of the
branches of conditionals that the expression is made of, the expression itself if it is none.
Checking that branch at run time fails in every context and focus for which its static type is
sound, and so does checking the whole expression wherever evaluation takes that branch. -/
theorem Expr.checkAs_rejected {d : Nat} {scope : Scope} (hscope : scope.optimize = true)
    {source e : Expr} (hcompiled : (source.compile (optimizerWithin d) scope).Gives e)
    {target : SeqType} {promote : Bool} {l : Option Location} {err : Error}
    (hrejected : (e.checkAs (optimizerWithin d) scope target promote l).Fails (.error err)) :
    ∃ b, e.Branch b ∧ ∀ depth env, b.SoundAt (callWithin depth) env →
    ∀ items, ¬((runtimeCheck b target promote l).value (callWithin depth) env).Gives items ∧
      (Expr.Takes (callWithin depth) env e b →
        ¬((runtimeCheck e target promote l).value (callWithin depth) env).Gives items ∧
        ¬((runtimeCheck e target promote l).drained (callWithin depth) env).Gives items) := by
  obtain ⟨b, hb, hnever⟩ :=
    Expr.checkAs_fails hscope hrejected (Expr.compile_resolved hscope hcompiled)
  refine ⟨b, hb, fun depth env hsound items =>
    ⟨fun h => ?_, fun htakes => ⟨fun h => ?_, fun h => ?_⟩⟩⟩
  · exact hnever _ env hsound items (runtimeCheck_value_iff.mp h)
  · exact hnever _ env hsound items (htakes.passes (runtimeCheck_value_iff.mp h))
  · exact hnever _ env hsound items
      (htakes.passes (runtimeCheck_value_iff.mp (Expr.value_iff_drained.mpr h)))

/-- A string is rejected where an integer is asked for, and no evaluation of it would pass. -/
theorem Expr.checkAs_rejected_string :
    let e : Expr := .literal [.string "x"]
    let s : StaticContext := { optimizeDepth := 1 }
    let target : SeqType := .one (.atomic .integer)
    ∃ err, (e.compile s.optimizer s.scope).Gives e ∧
      (e.checkAs s.optimizer s.scope target true none).Fails (.error err) ∧
      ∃ b, e.Branch b ∧ ∀ depth env, b.SoundAt (callWithin depth) env → ∀ items,
        ¬((runtimeCheck b target true none).value (callWithin depth) env).Gives items ∧
        (Expr.Takes (callWithin depth) env e b →
          ¬((runtimeCheck e target true none).value (callWithin depth) env).Gives items ∧
          ¬((runtimeCheck e target true none).drained (callWithin depth) env).Gives items) := by
  intro e s target
  have compiled : (e.compile s.optimizer s.scope).Gives e := rfl
  exact ⟨_, compiled, rfl, Expr.checkAs_rejected rfl compiled rfl⟩

end TreeQuery
