import Mathlib.Data.List.Forall2
import TreeQuery.Proofs.Termination.Ends
/-!
# Predicates that fail

A predicate that does not compile is put off: a failure takes its place, and the predicates beside
it compile. What comes after that, the rules for the list as a whole, puts nothing off.
`Host.compile_defers` says what gets through, for optimizers that are deep enough for the
predicates.
-/

namespace TreeQuery

variable {opt : Optimizer} {scope : Scope}

/-! ### One by one -/

/-- What takes the place of a predicate: what is compiled of it, or its error, to be raised if it is
evaluated. -/
inductive Expr.CompilesTo (opt : Optimizer) (scope : Scope) (e : Expr) : Expr → Prop where
  | compiled {e' : Expr} (h : (e.compile opt scope).Gives e') : e.CompilesTo opt scope e'
  | deferred {err : Error} (h : (e.compile opt scope).Fails (.error err)) :
    e.CompilesTo opt scope ⟨.failure (err.locate e.location), e.type, e.location⟩

theorem deferring_gives {e e' : Expr} (h : (deferring e (e.compile opt scope)).Gives e') :
    e.CompilesTo opt scope e' := by
  unfold deferring at h
  split at h
  · next log err hcompile =>
    simp only [Logged.gives_prepend, defer, Logged.gives_bind, gives_remark, Logged.gives_pure] at h
    obtain ⟨-, -, rfl⟩ := h
    exact .deferred (by rw [hcompile]; rfl)
  · exact .compiled h

theorem deferring_fails {old : Expr} {x : Compile Expr} {f : Failure}
    (h : (deferring old x).Fails f) : f = .aborted ∧ x.Fails .aborted := by
  unfold deferring at h
  split at h
  · cases h
  · next hother =>
    cases f with
    | aborted => exact ⟨rfl, h⟩
    | error err => exact absurd (by rw [← h]) (hother x.log err)

/-- Each predicate is compiled or put off, whatever becomes of the others. -/
theorem compilePredicates_gives {es es' : List Expr}
    (h : (compilePredicates opt scope es).Gives es') :
    List.Forall₂ (Expr.CompilesTo opt scope) es es' := by
  induction es generalizing es' with
  | nil =>
    simp only [compilePredicates, Logged.gives_pure] at h
    exact h ▸ .nil
  | cons e es ih =>
    simp only [compilePredicates, Logged.gives_bind, Logged.gives_pure] at h
    obtain ⟨e', he', rest, hrest, rfl⟩ := h
    exact .cons (deferring_gives he') (ih hrest)

theorem compilePredicates_fails {es : List Expr} {f : Failure}
    (h : (compilePredicates opt scope es).Fails f) :
    f = .aborted ∧ ∃ e ∈ es, (e.compile opt scope).Fails .aborted := by
  induction es with
  | nil => simp [compilePredicates] at h
  | cons e es ih =>
    simp only [compilePredicates, Logged.fails_bind, Logged.fails_pure, and_false,
      exists_false, or_false] at h
    obtain h | ⟨e', -, h⟩ := h
    · exact ⟨(deferring_fails h).1, e, List.mem_cons_self, (deferring_fails h).2⟩
    · obtain ⟨hf, e', he', haborted⟩ := ih h
      exact ⟨hf, e', List.mem_cons_of_mem e he', haborted⟩

/-! ### The list as a whole -/

namespace Host

/-- Compiles predicates where the items of their host are in focus, and optimizes the list, as for a
filter with a compiled root and for a step (`Form.compile`). -/
def compile (opt : Optimizer) (scope : Scope) (host : Host) (es : List Expr) :
    Compile Filtered := do
  let predicates ← compilePredicates opt (scope.withFocus (some host.type.item)) es
  optimizePredicates opt scope host predicates

def Compiled (scope : Scope) : Host → Prop
  | .root e => ∃ (d : Nat) (source : Expr), source.Built FunctionItem.Good ∧
    (source.compile (optimizerWithin d) scope).Gives e
  | .step _ _ => True

theorem Compiled.annotated {host : Host} (h : host.Compiled scope) :
    host.Annotated scope.visible scope.known := by
  cases host with
  | root root =>
    obtain ⟨d, source, hsource, hcompile⟩ := h
    exact Expr.compile_annotated (optimizerWithin_sound d) (fun _ => id) hsource hcompile
  | step axis test => trivial

theorem compile_ends {n : Nat} {host : Host} {es : List Expr} (hweight : weightAll 4 es < n) :
    Ends n fun d => host.compile (optimizerWithin d) scope es := by
  refine (compilePredicates_ends_of (endsBelow n) es (Nat.le_of_lt hweight)).bind fun es' h => ?_
  have := compilePredicates_weight (optimizerWithin_lightens n) h
  exact optimizePredicates_ends (endsBelow n) (by omega)

end Host

/-- Errors of predicates are put off while the predicates are compiled, one by one: each predicate
is compiled or deferred, whatever becomes of the others. The rules for the list as a whole have an
answer then, or they fail, in two ways: a predicate has become a constant whose truth is undefined,
or it does not compile once a literal of one item, which is filtered, stands for the context
item. -/
theorem Host.compile_defers {scope : Scope} {host : Host} {es : List Expr}
    (hhost : host.Compiled scope) (hes : BuiltAll FunctionItem.Good es) : ∀ d, weightAll 4 es < d →
    let opt := optimizerWithin d
    let focused := scope.withFocus (some host.type.item)
    ∃ es', (compilePredicates opt focused es).Gives es' ∧
      List.Forall₂ (Expr.CompilesTo opt focused) es es' ∧
      ((∃ filtered, (host.compile opt scope es).Gives filtered) ∨
        scope.optimize = true ∧ ∃ err, (host.compile opt scope es).Fails (.error err) ∧
          (err.OfConstant ∨ ∃ e ∈ es', host.InliningFails opt focused host.type e err)) := by
  intro d hd opt focused
  obtain ⟨es', hes'⟩ | ⟨f, h⟩ := (compilePredicates opt focused es).gives_or_fails
  swap
  · obtain rfl := (compilePredicates_fails h).1
    exact absurd h (compilePredicates_ends_of (endsBelow d) es (Nat.le_of_lt hd)).finite
  refine ⟨es', hes', compilePredicates_gives hes', ?_⟩
  obtain hgives | ⟨f, h⟩ := (host.compile opt scope es).gives_or_fails
  · exact .inl hgives
  cases f with
  | aborted => exact absurd h (Host.compile_ends hd).finite
  | error err =>
    have hlist : (optimizePredicates opt scope host es').Fails (.error err) := by
      simp only [Host.compile, Logged.fails_bind] at h
      obtain h | ⟨es'', hes'', h⟩ := h
      · cases (compilePredicates_fails h).1
      · exact hes'.unique hes'' ▸ h
    have hpredicates := compilePredicates_annotated (optimizerWithin_sound d) (fun _ => id) hes hes'
    obtain ⟨hoptimize, hfails⟩ :=
      optimizePredicates_fails (optimizerWithin_sound d) (optimizerWithin_failsOnConstants d)
      hhost.annotated (hpredicates.refine (hhost.annotated.refines_known scope)) hlist
    exact .inr ⟨hoptimize, err, h, hfails⟩

/-- An undeclared variable is put off, and `(1, 2)` beside it has no truth. -/
theorem Host.compile_defers_undeclared :
    let opt := optimizerWithin 12
    let scope : Scope := ⟨true, none, []⟩
    let host : Host := .root (.ofInt 1)
    let focused := scope.withFocus (some host.type.item)
    let es : List Expr :=
      [.of (.reference { name := .plain "x" }), .literal [.integer 1, .integer 2]]
    ∃ err es', (host.compile opt scope es).Fails (.error err) ∧
      (compilePredicates opt focused es).Gives es' ∧
      List.Forall₂ (Expr.CompilesTo opt focused) es es' ∧
      (err.OfConstant ∨ ∃ e ∈ es', host.InliningFails opt focused host.type e err) := by
  intro opt scope host focused es
  have compiled : host.Compiled scope := ⟨0, .ofInt 1, ⟨by decide, .inl rfl⟩, rfl⟩
  have built : BuiltAll FunctionItem.Good es := ⟨trivial, ⟨by decide, .inl rfl⟩, trivial⟩
  obtain ⟨es', hes', each, ⟨filtered, hgives⟩ | ⟨-, err, herr, hfails⟩⟩ :=
    Host.compile_defers compiled built 12 (by decide)
  · cases hgives
  · exact ⟨err, es', herr, hes', each, hfails⟩

/-- The predicates `(1, 2)` and `. = 'x'` of a filter of the integer 1 compile, and yet each of the
two lists fails. -/
theorem Host.compile_fails :
    let opt := optimizerWithin 12
    let scope : Scope := ⟨true, none, []⟩
    let host : Host := .root (.ofInt 1)
    let focused := scope.withFocus (some host.type.item)
    let isText : Expr := .of (.comparison .general .eq .contextItem (.literal [.string "x"]))
    host.Compiled scope ∧ ∀ e ∈ [.literal [.integer 1, .integer 2], isText],
      (∃ e', (e.compile opt focused).Gives e') ∧
        ∃ err, (host.compile opt scope [e]).Fails (.error err) := by
  intro opt scope host focused isText
  refine ⟨⟨0, .ofInt 1, ⟨by decide, .inl rfl⟩, rfl⟩, fun e he => ?_⟩
  simp only [List.mem_cons, List.not_mem_nil, or_false] at he
  obtain rfl | rfl := he
  · exact ⟨⟨_, rfl⟩, _, rfl⟩
  · exact ⟨⟨_, rfl⟩, _, rfl⟩

end TreeQuery
