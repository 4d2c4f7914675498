import TreeQuery.Compile.Expression
import TreeQuery.Proofs.Outcome
/-!
# What the rules can give

For each rule all that its answer can be. What the rules do to types, weights and values is shown
from these cases alone, so that a rule that changes has one lemma to change with it.
-/

namespace TreeQuery

@[simp] theorem gives_remark {note : String} {u : Unit} : (remark note).Gives u := rfl

@[simp] theorem gives_failStatically {α : Type} {found : String} {expected : SeqType}
    {l : Option Location} {a : α} : ¬(failStatically found expected l : Compile α).Gives a :=
    Logged.gives_fail

theorem replace_gives {old new e : Expr} :
    (replace old new).Gives e ↔ new.at? (new.location <|> old.location) = e := by
  unfold replace
  cases old.same new <;> simp

variable {opt : Optimizer} {scope : Scope} {e e' : Expr} {l : Option Location}

theorem Expr.literalValues?_eq_some {values : List Atomic} :
    e.literalValues? = some values ↔ e.form = .literal values := by
  obtain ⟨form, τ, place⟩ := e
  cases form <;> simp [literalValues?]

/-! ### Calls of built-in functions -/

theorem Expr.noEffects_of_isConstant (h : e.isConstant = true) : e.dependsOn .effects = false := by
  obtain ⟨form, τ, place⟩ := e
  cases form with
  | literal | function => rfl
  | _ => cases h

/-- What takes the place of a call: its argument, a constant unless the argument has an effect, or
the call that says the same of what `not` is applied to. -/
theorem foldCall_cases {f : Builtin} {arg new : Expr} (h : foldCall f arg = .ok (some new)) :
    f = .boolean ∧ new = arg ∨ (arg.dependsOn .effects = false ∧ ∃ v, new = .literal [v]) ∨
      f = .not ∧ ∃ args, arg.form = .call .empty args ∧ new = .call .exists args ∨
        arg.form = .call .exists args ∧ new = .call .empty args := by
  have constant {g : Bool → Bool} (hconstant : arg.isConstant = true)
      (h : (arg.constantTruth.map fun b => some (Expr.ofBool (g b))) = .ok (some new)) :
      arg.dependsOn .effects = false ∧ ∃ v, new = .literal [v] := by
    obtain ⟨b, -, hnew⟩ := map_eq_ok.mp h
    exact ⟨Expr.noEffects_of_isConstant hconstant, _, (Option.some.inj hnew).symm⟩
  cases f with
  | boolean =>
    simp only [foldCall] at h
    split at h
    · exact .inl ⟨rfl, (Option.some.inj (Except.ok.inj h)).symm⟩
    · split at h
      · next hconstant => exact .inr (.inl (constant (g := id) hconstant h))
      · cases h
  | not =>
    simp only [foldCall] at h
    split at h
    · next hconstant => exact .inr (.inl (constant (g := not) hconstant h))
    · split at h
      · next args hform =>
          exact .inr (.inr ⟨rfl, args, .inl ⟨hform, (Option.some.inj (Except.ok.inj h)).symm⟩⟩)
      · next args hform =>
          exact .inr (.inr ⟨rfl, args, .inr ⟨hform, (Option.some.inj (Except.ok.inj h)).symm⟩⟩)
      · cases h
  | «exists» | empty =>
    simp only [foldCall, Except.ok.injEq, Option.ite_none_left_eq_some, foldExistence,
      Option.map_eq_some_iff] at h
    obtain ⟨heffects, b, -, rfl⟩ := h
    exact .inr (.inl ⟨Bool.eq_false_iff.mpr heffects, _, rfl⟩)
  | count =>
    simp only [foldCall, Except.ok.injEq, Option.ite_none_left_eq_some, Option.map_eq_some_iff] at h
    obtain ⟨heffects, n, -, rfl⟩ := h
    exact .inr (.inl ⟨Bool.eq_false_iff.mpr heffects, _, rfl⟩)
  | position | last | trace => cases h

/-- What becomes of a call: the call, in which an only argument of which the truth counts may be a
simpler one that does not fold, or what folding puts in its place. -/
theorem optimizeCall_cases {f : Builtin} {args : List Expr}
    (h : (optimizeCall opt scope f args l).Gives e) :
    ∃ args', (args' = args ∨ (f = .boolean ∨ f = .not) ∧ ∃ arg arg', args = [arg] ∧ args' = [arg'] ∧
        (opt.simplify .truth scope arg).Gives arg') ∧
      (e = ⟨.call f args', f.resultType args', l⟩ ∧
        (args' = args ∨ ∃ arg', args' = [arg'] ∧ foldCall f arg' = .ok none) ∨
        ∃ arg' new place, args' = [arg'] ∧ foldCall f arg' = .ok (some new) ∧
        e = new.at? place) := by
  obtain _ | ⟨arg, _ | ⟨second, rest⟩⟩ := args
  · exact ⟨_, .inl rfl, .inl ⟨(Logged.gives_pure.mp h).symm, .inl rfl⟩⟩
  · unfold optimizeCall at h
    rw [Logged.gives_ite, Logged.gives_ite_bind] at h
    obtain ⟨-, h⟩ | ⟨-, arg', harg', h⟩ := h
    · exact ⟨_, .inl rfl, .inl ⟨(Logged.gives_pure.mp h).symm, .inl rfl⟩⟩
    · refine ⟨[arg'], ?_, ?_⟩
      · simp only [Logged.gives_ite, Logged.gives_pure, Bool.or_eq_true, beq_iff_eq] at harg'
        obtain ⟨hf, hsimple⟩ | ⟨-, rfl⟩ := harg'
        · exact .inr ⟨hf, arg, arg', rfl, rfl, hsimple⟩
        · exact .inl rfl
      · obtain ⟨new?, hfold, h⟩ := Logged.gives_bind.mp h
        cases new? with
        | none =>
          exact .inl ⟨(Logged.gives_pure.mp h).symm, .inr ⟨arg', rfl, Logged.gives_lift.mp hfold⟩⟩
        | some new =>
          exact .inr ⟨arg', new, _, rfl, Logged.gives_lift.mp hfold, (replace_gives.mp h).symm⟩
  · exact ⟨_, .inl rfl, .inl ⟨(Logged.gives_pure.mp h).symm, .inl rfl⟩⟩

/-! ### Conjunctions, disjunctions and conditionals -/

def Form.joined (isAnd : Bool) (es : List Expr) : Form :=
  if isAnd then .conjunction es else .disjunction es

theorem flattenOperands_cons {isAnd : Bool} {es es' : List Expr}
    (h : (flattenOperands opt scope isAnd (e :: es)).Gives es') :
    ∃ e' rest, (opt.simplify .truth scope e).Gives e' ∧
    (flattenOperands opt scope isAnd es).Gives rest ∧
      (es' = e' :: rest ∨ ∃ inner, e'.form = .joined isAnd inner ∧ es' = inner ++ rest) := by
  simp only [flattenOperands, Logged.gives_bind] at h
  obtain ⟨e', he', rest, hrest, h⟩ := h
  refine ⟨e', rest, he', hrest, ?_⟩
  split at h
  · next inner hform =>
    obtain rfl := Logged.gives_pure.mp h
    cases isAnd with
    | true => exact .inr ⟨inner, hform, rfl⟩
    | false => exact .inl rfl
  · next inner hform =>
    obtain rfl := Logged.gives_pure.mp h
    cases isAnd with
    | true => exact .inl rfl
    | false => exact .inr ⟨inner, hform, rfl⟩
  · exact .inl (Logged.gives_pure.mp h).symm

theorem dropConstants_sublist {isAnd : Bool} :
    {es kept : List Expr} → (dropConstants isAnd es).Gives (some kept) → kept.Sublist es
  | [], _, h => by
    obtain rfl := Option.some.inj (Logged.gives_pure.mp h)
    exact .slnil
  | e :: es, kept, h => by
    simp only [dropConstants, Logged.gives_ite, Logged.gives_bind, Logged.gives_pure, gives_remark,
      true_and, exists_const, Option.map_eq_some_iff, reduceCtorEq, and_false, false_or] at h
    obtain ⟨-, rest, hrest, kept, rfl, rfl⟩ | ⟨-, -, -, -, h⟩ := h
    · exact (dropConstants_sublist hrest).cons_cons e
    · exact (dropConstants_sublist h).cons e

/-- What becomes of a conjunction or a disjunction: that of its operands with nested ones dissolved,
of those that are no constants, a constant, or the truth of the only operand left. -/
theorem optimizeLogic_cases {isAnd : Bool} {es : List Expr}
    (h : (optimizeLogic opt scope isAnd es l).Gives e) :
    ∃ flat, (flattenOperands opt scope isAnd es).Gives flat ∧
      (e = ⟨.joined isAnd flat, .boolean, l⟩ ∨
      (dropConstants isAnd flat).Gives none ∧ e = (Expr.ofBool !isAnd).at? l ∨
      (dropConstants isAnd flat).Gives (some []) ∧ e = (Expr.ofBool isAnd).at? l ∨
      (∃ operand, (dropConstants isAnd flat).Gives (some [operand]) ∧
        (optimizeCall opt scope .boolean [operand] l).Gives e) ∨
      ∃ kept, (dropConstants isAnd flat).Gives (some kept) ∧
      e = ⟨.joined isAnd kept, .boolean, l⟩) := by
  simp only [optimizeLogic, Logged.gives_ite, Logged.gives_bind, Logged.gives_pure] at h
  obtain ⟨flat, hflat, ⟨-, rfl⟩ | ⟨-, kept, hkept, h⟩⟩ := h
  · exact ⟨flat, hflat, .inl rfl⟩
  · refine ⟨flat, hflat, .inr ?_⟩
    split at h
    · exact .inl ⟨hkept, (Logged.gives_pure.mp h).symm⟩
    · exact .inr (.inl ⟨hkept, (Logged.gives_pure.mp h).symm⟩)
    · exact .inr (.inr (.inl ⟨_, hkept, h⟩))
    · exact .inr (.inr (.inr ⟨_, hkept, (Logged.gives_pure.mp h).symm⟩))

theorem optimizeConditional_cases {condition yes no : Expr}
    (h : (optimizeConditional opt scope condition yes no l).Gives e) :
    ∃ condition', (opt.simplify .truth scope condition).Gives condition' ∧
      ((∃ b, condition'.constantTruth = .ok b ∧ e = if b then yes else no) ∨
        e = ⟨.conditional condition' yes no, yes.type.union no.type, l⟩) := by
  simp only [optimizeConditional, Logged.gives_ite, Logged.gives_bind, Logged.gives_pure,
    Logged.gives_lift, gives_remark] at h
  obtain ⟨condition', hcondition, ⟨-, b, hb, -, -, rfl⟩ | ⟨-, rfl⟩⟩ := h
  · exact ⟨condition', hcondition, .inl ⟨b, hb, rfl⟩⟩
  · exact ⟨condition', hcondition, .inr rfl⟩

/-! ### Comparisons and searches -/

theorem foldComparison_cases {style : CompareStyle} {op : CompareOp} {left right : Expr}
    {vs ws : List Atomic} (h : (foldComparison style op left right vs ws l).Gives e) :
    (∃ b, e = .ofBool b ∧ (style = .general ∧ compareGeneral op vs ws = .ok b ∨
      style = .value ∧ ∃ v w, vs = [v] ∧ ws = [w] ∧ Atomic.compare op v w = .ok b)) ∨
    style = .value ∧ (vs = [] ∨ ws = []) ∧ e = .empty := by
  unfold foldComparison at h
  split at h
  · obtain ⟨b, hb, rfl⟩ := Logged.gives_map.mp h
    exact .inl ⟨b, rfl, .inl ⟨rfl, Logged.gives_lift.mp hb⟩⟩
  · split at h
    · exact .inr ⟨rfl, .inl rfl, (Logged.gives_pure.mp h).symm⟩
    · exact .inr ⟨rfl, .inr rfl, (Logged.gives_pure.mp h).symm⟩
    · obtain ⟨b, hb, rfl⟩ := Logged.gives_map.mp h
      exact .inl ⟨b, rfl, .inr ⟨rfl, _, _, rfl, rfl, Logged.gives_lift.mp hb⟩⟩
    · exact absurd h gives_failStatically

/-- What becomes of a comparison: itself, the one the other way round, its answer if both sides are
literals, or false if one side of a general comparison is empty by its static type and neither has
an effect. -/
theorem optimizeComparison_cases {style : CompareStyle} {op : CompareOp} {left right : Expr}
    (h : (optimizeComparison scope style op left right l).Gives e) :
    e = ⟨.comparison style op left right, comparisonType style left right, l⟩ ∨
    e = ⟨.comparison style op.swap right left, comparisonType style right left, l⟩ ∨
    (∃ vs ws folded place, left.literalValues? = some vs ∧ right.literalValues? = some ws ∧
      (foldComparison style op left right vs ws l).Gives folded ∧ e = folded.at? place) ∨
    style = .general ∧
    ((left.type.isZero = true ∨ right.type.isZero = true) ∧ left.dependsOn .effects = false ∧
      right.dependsOn .effects = false) ∧ e = (Expr.ofBool false).at? l := by
  unfold optimizeComparison at h
  rw [Logged.gives_ite, Logged.gives_pure] at h
  obtain ⟨-, rfl⟩ | ⟨-, h⟩ := h
  · exact .inl rfl
  split at h
  · next vs ws hvs hws =>
    obtain ⟨folded, hfolded, h⟩ := Logged.gives_bind.mp h
    exact .inr (.inr (.inl ⟨vs, ws, folded, _, hvs, hws, hfolded, (replace_gives.mp h).symm⟩))
  · cases hswap : left.isConstant && !right.isConstant <;>
      simp only [hswap, Bool.false_eq_true, if_false, if_true, Logged.gives_ite, Logged.gives_bind,
        Logged.gives_pure, gives_remark, Bool.and_eq_true, Bool.or_eq_true, Bool.not_eq_true',
        beq_iff_eq] at h
    · obtain ⟨⟨⟨⟨hgeneral, hzero⟩, hleft⟩, hright⟩, -, -, rfl⟩ | ⟨-, rfl⟩ := h
      · exact .inr (.inr (.inr ⟨hgeneral, ⟨hzero, hleft, hright⟩, rfl⟩))
      · exact .inl rfl
    · obtain ⟨-, -, ⟨⟨⟨⟨hgeneral, hzero⟩, hright⟩, hleft⟩, -, -, rfl⟩ | ⟨-, rfl⟩⟩ := h
      · exact .inr (.inr (.inr ⟨hgeneral, ⟨hzero.symm, hleft, hright⟩, rfl⟩))
      · exact .inr (.inl rfl)

theorem optimizeSearch_cases {input query : Expr}
    (h : (optimizeSearch scope input query l).Gives e) :
    e = ⟨.containsText input query, .boolean, l⟩ ∨
    input.type.isZero = true ∧ e = (Expr.ofBool false).at? l := by
  simp only [optimizeSearch, Logged.gives_ite, Logged.gives_bind, gives_remark, Logged.gives_pure,
    Bool.and_eq_true] at h
  obtain ⟨⟨-, hzero⟩, -, -, rfl⟩ | ⟨-, rfl⟩ := h
  · exact .inr ⟨hzero, rfl⟩
  · exact .inl rfl

/-! ### Paths and maps -/

theorem flattenSteps_cons (s : Expr) (ss : List Expr) :
    flattenSteps scope (s :: ss) = flattenSteps scope [s] ++ flattenSteps scope ss := by
  obtain ⟨form, type, l⟩ := s
  cases form <;> simp [flattenSteps]

theorem flattenSteps_single (scope : Scope) (s : Expr) : flattenSteps scope [s] = [s] ∨
    ∃ inner type l, s = ⟨.relativePath inner, type, l⟩ ∧ flattenSteps scope [s] = inner := by
  obtain ⟨form, type, l⟩ := s
  cases form
  case relativePath inner =>
    cases hopt : scope.optimize
    · exact .inl (by simp [flattenSteps, hopt])
    · exact .inr ⟨inner, type, l, rfl, by simp [flattenSteps, hopt]⟩
  all_goals exact .inl (by simp [flattenSteps])

theorem flattenSteps_ne_nil {steps : List Expr}
    (hinner : ∀ s ∈ steps, ∀ inner, s.form = .relativePath inner → inner ≠ [])
    (hsteps : steps ≠ []) : flattenSteps scope steps ≠ [] := by
  obtain ⟨s, ss, rfl⟩ := List.exists_cons_of_ne_nil hsteps
  rw [flattenSteps_cons]
  refine List.append_ne_nil_of_left_ne_nil ?_ _
  obtain heq | ⟨inner, τ, l, rfl, heq⟩ := flattenSteps_single scope s
  · simp [heq]
  · rw [heq]
    exact hinner _ List.mem_cons_self inner rfl

theorem replaceIfEmpty_cases {hasEmpty : Bool} (h : (replaceIfEmpty scope e hasEmpty).Gives e') :
    e' = e ∨ (hasEmpty = true ∧ e.dependsOn .effects = false) ∧
    ∃ place, e' = Expr.empty.at? place := by
  simp only [replaceIfEmpty, Logged.gives_ite, Logged.gives_pure, Bool.and_eq_true,
    Bool.not_eq_true'] at h
  obtain ⟨⟨⟨-, hempty⟩, heffects⟩, h⟩ | ⟨-, rfl⟩ := h
  · exact .inr ⟨⟨hempty, heffects⟩, _, (replace_gives.mp h).symm⟩
  · exact .inl rfl

/-- What becomes of a path from a root: the root if there are no steps, the path with nested ones
written out, or nothing if a part of it is empty and none has an effect. -/
theorem optimizePath_some_cases {root : Expr} {steps : List Expr}
    (h : (optimizePath scope (some root) steps l).Gives e) :
    flattenSteps scope steps = [] ∧ e = root.at? l ∨
    flattenSteps scope steps ≠ [] ∧
    e = ⟨.path root (flattenSteps scope steps),
      .of (lastItemType (flattenSteps scope steps))
      (chainOccurrence root.type.occurrence (flattenSteps scope steps)), l⟩ ∨
    ((root.type.isZero || (flattenSteps scope steps).any (·.type.isZero)) = true ∧
      (Form.path root (flattenSteps scope steps)).dependsOn .effects = false) ∧
      ∃ place, e = Expr.empty.at? place := by
  unfold optimizePath at h
  generalize flattenSteps scope steps = flat at h
  cases flat with
  | nil => exact .inl ⟨rfl, (Logged.gives_pure.mp h).symm⟩
  | cons s ss =>
    exact .inr ((replaceIfEmpty_cases h).imp_left fun he => ⟨List.cons_ne_nil s ss, he⟩)

/-- What becomes of a relative path: the context item if there are no steps, its only step, the path
with nested ones written out, or nothing if a step is empty and none has an effect. -/
theorem optimizePath_none_cases {steps : List Expr}
    (h : (optimizePath scope none steps l).Gives e) :
    flattenSteps scope steps = [] ∧ e = Expr.contextItem.at? l ∨
    flattenSteps scope steps = [e] ∧ e.isStep = true ∨
    flattenSteps scope steps ≠ [] ∧
    e = ⟨.relativePath (flattenSteps scope steps),
      .of (lastItemType (flattenSteps scope steps))
      (chainOccurrence .one (flattenSteps scope steps)), l⟩ ∨
    ((flattenSteps scope steps).any (·.type.isZero) = true ∧
      (Form.relativePath (flattenSteps scope steps)).dependsOn .effects = false) ∧
      ∃ place, e = Expr.empty.at? place := by
  unfold optimizePath at h
  generalize flattenSteps scope steps = flat at h
  obtain _ | ⟨s, _ | ⟨s', ss⟩⟩ := flat
  · exact .inl ⟨rfl, (Logged.gives_pure.mp h).symm⟩
  · simp only [Logged.gives_ite, Logged.gives_pure, Bool.and_eq_true] at h
    obtain ⟨⟨-, hstep⟩, rfl⟩ | ⟨-, h⟩ := h
    · exact .inr (.inl ⟨rfl, hstep⟩)
    · refine .inr (.inr ((replaceIfEmpty_cases h).imp (fun he => ⟨List.cons_ne_nil s [], he⟩) ?_))
      rintro ⟨⟨hzero, heffects⟩, hempty⟩
      exact ⟨⟨by simpa using hzero, heffects⟩, hempty⟩
  · exact .inr (.inr ((replaceIfEmpty_cases h).imp_left fun he => ⟨List.cons_ne_nil s _, he⟩))

theorem dropContextItems_cons {first second : Expr} {rest kept : List Expr}
    (h : (dropContextItems (first :: second :: rest)).Gives kept) :
    (first.isContextItem = true ∧ second.dependsOn .position = false ∧
      (dropContextItems (second :: rest)).Gives kept) ∨
      kept = first :: second :: rest := by
  simp only [dropContextItems, Logged.gives_ite, Logged.gives_bind, gives_remark, Logged.gives_pure,
    Bool.and_eq_true, Bool.not_eq_true'] at h
  obtain ⟨⟨hfirst, hsecond⟩, -, -, h⟩ | ⟨-, rfl⟩ := h
  · exact .inl ⟨hfirst, hsecond, h⟩
  · exact .inr rfl

theorem optimizeMap_cases {es : List Expr} (h : (optimizeMap scope es l).Gives e) :
    ∃ kept, (kept = es ∨ scope.optimize = true ∧ (dropContextItems es).Gives kept) ∧
      ((∃ operand, kept = [operand] ∧ e = operand.at? l) ∨
        (scope.optimize = true → kept.length ≠ 1) ∧
        e = ⟨.map kept, .make (lastItemType kept) (chainOccurrence .one kept)
          (productSize kept), l⟩ ∨
        (kept.any (·.type.isZero) = true ∧ (Form.map kept).dependsOn .effects = false) ∧
        ∃ place, e = Expr.empty.at? place) := by
  simp only [optimizeMap, Logged.gives_ite_bind] at h
  obtain ⟨kept, hkept, h⟩ := h
  refine ⟨kept, ?_, ?_⟩
  · simp only [Logged.gives_ite, Logged.gives_pure] at hkept
    exact hkept.symm.imp_left fun h => h.2.symm
  · obtain _ | ⟨operand, _ | ⟨second, rest⟩⟩ := kept
    · exact .inr ((replaceIfEmpty_cases h).imp_left fun he => ⟨fun _ => Nat.zero_ne_one, he⟩)
    · simp only [Logged.gives_ite, Logged.gives_pure] at h
      obtain ⟨-, rfl⟩ | ⟨hoptimize, rfl⟩ := h
      · exact .inl ⟨operand, rfl, rfl⟩
      · exact .inr (.inl ⟨fun h => absurd h hoptimize, rfl⟩)
    · exact .inr ((replaceIfEmpty_cases h).imp_left fun he => ⟨fun _ => by simp, he⟩)

/-! ### Filters -/

theorem optimizeFilter_cases {root : Expr} {es : List Expr}
    (h : (optimizeFilter opt scope root es l).Gives e) :
    ∃ filtered, (optimizePredicates opt scope (.root root) es).Gives filtered ∧
      ((∃ t, filtered.type = some t ∧
          (filtered.predicates = [] ∧ e = root ∨ e = ⟨.filter root filtered.predicates, t, l⟩)) ∨
        filtered.type = none ∧ ∃ place, e = Expr.empty.at? place) := by
  simp only [optimizeFilter, Logged.gives_bind] at h
  obtain ⟨filtered, hfiltered, h⟩ := h
  refine ⟨filtered, hfiltered, ?_⟩
  unfold finishFilter at h
  split at h
  · next t ht =>
    obtain rfl := Logged.gives_pure.mp h
    refine .inl ⟨t, ht, ?_⟩
    split
    · next hnone => exact .inl ⟨List.isEmpty_iff.mp hnone, rfl⟩
    · exact .inr rfl
  · next ht => exact .inr ⟨ht, _, (replace_gives.mp h).symm⟩

theorem finishStep_cases {axis : Axis} {test : NodeTest} {es : List Expr} {τ : Option StaticType}
    (h : (finishStep axis test es τ l).Gives e) :
    (∃ t, τ = some t ∧ e = ⟨.step axis test es, t, l⟩) ∨
    τ = none ∧ ∃ place, e = Expr.empty.at? place := by
  unfold finishStep at h
  split at h
  · exact .inl ⟨_, rfl, (Logged.gives_pure.mp h).symm⟩
  · exact .inr ⟨rfl, _, (replace_gives.mp h).symm⟩

theorem optimizeStep_cases {axis : Axis} {test : NodeTest} {es : List Expr}
    (h : (optimizeStep opt scope axis test es l).Gives e) :
    ∃ filtered, (optimizePredicates opt scope (.step axis test) es).Gives filtered ∧
      ((∃ axis' test' t, filtered.type = some t ∧
        e = ⟨.step axis' test' filtered.predicates, t, l⟩) ∨
        filtered.type = none ∧ ∃ place, e = Expr.empty.at? place) := by
  simp only [optimizeStep, Logged.gives_bind] at h
  obtain ⟨filtered, hfiltered, h⟩ := h
  refine ⟨filtered, hfiltered, ?_⟩
  split at h
  · exact (finishStep_cases h).imp_left fun hstep => ⟨_, _, hstep⟩
  · exact (finishStep_cases h).imp_left fun hstep => ⟨_, _, hstep⟩

/-! ### Type checks -/

theorem checkLiteral_cases {values : List Atomic} {target : SeqType} {promote : Bool}
    (h : (checkLiteral e values target promote l).Gives e') :
    ∃ values' place, checkAtomics values target promote = .ok values' ∧
    e' = (Expr.literal values').at? place := by
  unfold checkLiteral at h
  split at h
  · next values' hvalues =>
    obtain rfl := replace_gives.mp h
    exact ⟨values', _, hvalues, rfl⟩
  · exact absurd h Logged.gives_fail

theorem checkFunction_cases {f : FunctionItem} {target : SeqType} {promote : Bool}
    (h : (checkFunction e f target promote l).Gives e') :
    ∃ s g, target.item = .functionOf s ∧ target.occurrence.admits 1 = true ∧ promote = true ∧
    f.coerce s = .ok g ∧
      e' = (Expr.of (.function g)).at? l := by
  unfold checkFunction at h
  split at h
  · next s hs =>
    simp only [Logged.gives_ite, gives_failStatically, and_false, false_or, coerceFunction,
      Logged.gives_bind, Logged.gives_lift, gives_remark, Logged.gives_pure] at h
    obtain ⟨hadmits, g, ⟨g', hg, -, -, rfl⟩, rfl⟩ := h
    simp only [Bool.or_eq_true, Bool.not_eq_true', not_or, Bool.not_eq_false] at hadmits
    exact ⟨s, g', hs, hadmits.1, hadmits.2, hg, rfl⟩
  · exact absurd h gives_failStatically

/-- What becomes of a check: the check at run time, the operand if its static type is enough, a
checked constant or function, or a conditional with a check in each branch. -/
theorem Expr.checkAs_cases {target : SeqType} {promote : Bool}
    (h : (e.checkAs opt scope target promote l).Gives e') : e' = runtimeCheck e target promote l ∨
    e.type.instanceOf target = true ∧ e' = e ∨
    (∃ f, e.form = .function f ∧ (checkFunction e f target promote l).Gives e') ∨
    (∃ values, e.form = .literal values ∧ (checkLiteral e values target promote l).Gives e') ∨
    ∃ condition yes no yes' no', e.form = .conditional condition yes no ∧
      (yes.checkAs opt scope target promote yes.location).Gives yes' ∧
      (no.checkAs opt scope target promote no.location).Gives no' ∧
      (optimizeConditional opt scope condition yes' no' l).Gives e' := by
  obtain ⟨form, τ, place⟩ := e
  unfold Expr.checkAs at h
  simp only [Logged.gives_ite, Logged.gives_bind, gives_remark, Logged.gives_pure] at h
  obtain ⟨-, rfl⟩ | ⟨-, ⟨htype, -, -, rfl⟩ | ⟨-, h⟩⟩ := h
  · exact .inl rfl
  · exact .inr (.inl ⟨htype, rfl⟩)
  split at h
  · exact .inr (.inr (.inl ⟨_, rfl, h⟩))
  · exact .inr (.inr (.inr (.inl ⟨_, rfl, h⟩)))
  · simp only [Logged.gives_ite, gives_failStatically, and_false, false_or, Logged.gives_bind] at h
    obtain ⟨-, yes', hyes, no', hno, h⟩ := h
    exact .inr (.inr (.inr (.inr ⟨_, _, _, yes', no', rfl, hyes, hno, h⟩)))
  · simp only [Logged.gives_ite, gives_failStatically, and_false, false_or, Logged.gives_pure] at h
    exact .inl h.2.symm

/-! ### Calls of function items -/

theorem dropRedundantChecks_cons {arg : Expr} {args args' : List Expr} {v : Variable}
    {vs : List Variable} (h : (dropRedundantChecks (arg :: args) (v :: vs)).Gives args') :
    ∃ arg' rest, (dropRedundantChecks args vs).Gives rest ∧ args' = arg' :: rest ∧
      (arg' = arg ∨ ∃ target promote, arg.form = .check arg' target promote ∧
        checkIsRedundant target promote v = true) := by
  unfold dropRedundantChecks at h
  split at h
  · next operand target promote hform =>
    simp only [Logged.gives_ite, Logged.gives_bind, gives_remark, Logged.gives_pure] at h
    obtain ⟨hredundant, -, -, arg', rfl, rest, hrest, rfl⟩ | ⟨-, arg', rfl, rest, hrest, rfl⟩ := h
    · exact ⟨operand, rest, hrest, rfl, .inr ⟨target, promote, hform, hredundant⟩⟩
    · exact ⟨_, rest, hrest, rfl, .inl rfl⟩
  · simp only [Logged.gives_bind, Logged.gives_pure] at h
    obtain ⟨arg', rfl, rest, hrest, rfl⟩ := h
    exact ⟨_, rest, hrest, rfl, .inl rfl⟩

theorem dropRedundantChecks_mem : {args args' : List Expr} → {vs : List Variable} →
    (dropRedundantChecks args vs).Gives args' →
    ∀ arg ∈ args', arg ∈ args ∨ ∃ target promote τ l, ⟨.check arg target promote, τ, l⟩ ∈ args
  | [], args', vs, h => by
    unfold dropRedundantChecks at h
    obtain rfl := Logged.gives_pure.mp h
    simp
  | _ :: _, args', [], h => by
    unfold dropRedundantChecks at h
    obtain rfl := Logged.gives_pure.mp h
    simp
  | ⟨form, τ, place⟩ :: args, args', v :: vs, h => by
    obtain ⟨arg', rest, hrest, rfl, harg'⟩ := dropRedundantChecks_cons h
    intro arg harg
    rcases List.mem_cons.mp harg with rfl | harg
    · obtain rfl | ⟨target, promote, hform, -⟩ := harg'
      · exact .inl List.mem_cons_self
      · subst hform
        exact .inr ⟨target, promote, τ, place, List.mem_cons_self⟩
    · refine (dropRedundantChecks_mem hrest arg harg).imp (List.mem_cons_of_mem _) ?_
      rintro ⟨target, promote, τ, place, hmem⟩
      exact ⟨target, promote, τ, place, List.mem_cons_of_mem _ hmem⟩

def applyType : Option Signature → StaticType
  | some s => .ofSeqType s.result
  | none => .anything

theorem optimizeKnownApply_cases {signature : Option Signature} {f : Expr} {args : List Expr}
    (h : (optimizeKnownApply scope signature f args l).Gives e) :
    ∃ args', (args' = args ∨ ∃ vs, (dropRedundantChecks args vs).Gives args') ∧
    e = ⟨.apply f args', applyType signature, l⟩ := by
  unfold optimizeKnownApply at h
  dsimp only at h
  generalize ht : (match signature with
    | some s => StaticType.ofSeqType s.result
    | none => .anything) = t at h
  obtain rfl : applyType signature = t := ht
  split at h
  · simp only [Logged.gives_ite, Logged.gives_bind, Logged.gives_pure] at h
    obtain ⟨-, args', hargs', rfl⟩ | ⟨-, args', rfl, rfl⟩ := h
    · exact ⟨args', .inr ⟨_, hargs'⟩, rfl⟩
    · exact ⟨_, .inl rfl, rfl⟩
  · simp only [Logged.gives_bind, Logged.gives_pure] at h
    obtain ⟨args', rfl, rfl⟩ := h
    exact ⟨_, .inl rfl, rfl⟩

theorem optimizeApply_cases {f : Expr} {args : List Expr}
    (h : (optimizeApply scope f args l).Gives e) :
    ∃ signature args', (∀ s, signature = some s → f.type.item = .functionOf s) ∧
      (args' = args ∨ ∃ vs, (dropRedundantChecks args vs).Gives args') ∧
      e = ⟨.apply f args', applyType signature, l⟩ := by
  unfold optimizeApply at h
  split at h
  · next s hs =>
    rw [Logged.gives_ite] at h
    obtain ⟨-, h⟩ | ⟨-, h⟩ := h
    · exact absurd h gives_failStatically
    · exact ⟨some s, (optimizeKnownApply_cases h).imp fun _ h =>
        ⟨fun s' hs' => Option.some.inj hs' ▸ hs, h⟩⟩
  · exact ⟨none, (optimizeKnownApply_cases h).imp fun _ h => ⟨by simp, h⟩⟩
  · exact ⟨none, (optimizeKnownApply_cases h).imp fun _ h => ⟨by simp, h⟩⟩
  · exact absurd h gives_failStatically

/-! ### The truth of a filter -/

section Truth

variable {root : Expr} {es : List Expr}

theorem remainingRoot_cases (h : (remainingRoot opt scope root es).Gives e) :
    es.dropLast = [] ∧ e = root ∨ es.dropLast ≠ [] ∧
    (optimizeFilter opt scope root es.dropLast root.location).Gives e := by
  unfold remainingRoot at h
  split at h
  · next hnone => exact .inl ⟨hnone, (Logged.gives_pure.mp h).symm⟩
  · next hsome => exact .inr ⟨hsome, h⟩

theorem relativeSteps?_cases {steps : List Expr} (h : relativeSteps? e = some steps) :
    e.isStep = true ∧ steps = [e] ∨ e.form = .relativePath steps ∨
      ∃ first, e.form = .path first steps ∧ first.isContextItem = true := by
  unfold relativeSteps? at h
  split at h
  · next hform => exact .inl ⟨by rw [Expr.isStep, hform], (Option.some.inj h).symm⟩
  · next inner hform => exact .inr (.inl (Option.some.inj h ▸ hform))
  · next first inner hform =>
    obtain ⟨hfirst, h⟩ := Option.ite_none_right_eq_some.mp h
    exact .inr (.inr ⟨first, Option.some.inj h ▸ hform, hfirst⟩)
  · cases h

/-- Outside of the brackets the context item is what is left of the root, and a relative path is a
path from it. -/
theorem extendRoot_cases (h : (extendRoot opt scope root es e).Gives (some e')) :
    ∃ head, (remainingRoot opt scope root es).Gives head ∧ (e.isContextItem = true ∧ e' = head ∨
      ∃ steps, relativeSteps? e = some steps ∧
      (optimizePath scope (some head) steps e.location).Gives e') := by
  unfold extendRoot at h
  simp only [Logged.gives_ite, Logged.gives_map, Option.some.injEq] at h
  obtain ⟨hitem, head, hhead, rfl⟩ | ⟨-, h⟩ := h
  · exact ⟨head, hhead, .inl ⟨hitem, rfl⟩⟩
  split at h
  · next steps hsteps =>
    simp only [Logged.gives_bind, Logged.gives_map, Option.some.injEq] at h
    obtain ⟨head, hhead, path, hpath, rfl⟩ := h
    exact ⟨head, hhead, .inr ⟨steps, hsteps, hpath⟩⟩
  · cases Logged.gives_pure.mp h

/-- What the last predicate becomes outside of the brackets: a path, or a map if the root is at most
one item. -/
theorem liftPredicate_cases {last : Expr}
    (h : (liftPredicate opt scope root es last).Gives (some e)) :
    (extendRoot opt scope root es last).Gives (some e) ∨ root.type.atMostOne = true ∧
      ∃ head, (remainingRoot opt scope root es).Gives head ∧
      (optimizeMap scope [head, last] last.location).Gives e := by
  simp only [liftPredicate, Logged.gives_bind] at h
  obtain ⟨extended, hextended, h⟩ := h
  split at h
  · exact .inl (Logged.gives_pure.mp h ▸ hextended)
  · simp only [Logged.gives_ite, Logged.gives_bind, Logged.gives_map, Logged.gives_pure,
      Option.some.injEq, reduceCtorEq, and_false, or_false] at h
    obtain ⟨hone, head, hhead, map, hmap, rfl⟩ := h
    exact .inr ⟨hone, head, hhead, hmap⟩

/-- What the last predicate of a filter of nodes becomes outside of the brackets: a path or a map,
or a comparison or a full-text search of which the right side does not ask for the item in focus. -/
theorem simplifyFilter_cases (h : (simplifyFilter opt scope root es).Gives (some e)) :
    ∃ last, es.getLast? = some last ∧ root.type.item.isNode = true ∧
    es.any Expr.isPositional = false ∧
      ((liftPredicate opt scope root es last).Gives (some e) ∨
      (∃ op left right lifted, last.form = .comparison .general op left right ∧
        right.dependsOn .context = false ∧
        (extendRoot opt scope root es left).Gives (some lifted) ∧
        (optimizeComparison scope .general op lifted right last.location).Gives e) ∨
      ∃ input query lifted, last.form = .containsText input query ∧
      query.dependsOn .context = false ∧
        (extendRoot opt scope root es input).Gives (some lifted) ∧
        (optimizeSearch scope lifted query last.location).Gives e) := by
  -- the left side is lifted only if the right one does not ask for the item in focus
  have lifts {right left lifted : Expr}
      (h : (if right.dependsOn .context then pure none else extendRoot opt scope root es left).Gives
        (some lifted)) :
      right.dependsOn .context = false ∧
        (extendRoot opt scope root es left).Gives (some lifted) := by
    simpa [Logged.gives_ite] using h
  unfold simplifyFilter at h
  split at h
  · cases Logged.gives_pure.mp h
  next last hlast =>
  simp only [Logged.gives_ite, Logged.gives_pure, reduceCtorEq, and_false, false_or,
    Bool.or_eq_true, Bool.not_eq_true', not_or, Bool.not_eq_false, Bool.not_eq_true] at h
  obtain ⟨⟨hnode, hpositional⟩, h⟩ := h
  refine ⟨last, hlast, hnode, hpositional, ?_⟩
  split at h
  · next op left right hform =>
    rw [Logged.gives_ite_bind] at h
    obtain ⟨lifted, hlifted, h⟩ := h
    cases lifted with
    | none => exact .inl h
    | some lifted =>
      obtain ⟨hcontext, hextended⟩ := lifts hlifted
      simp only [Logged.gives_map, Option.some.injEq, exists_eq_right] at h
      exact .inr (.inl ⟨op, left, right, lifted, hform, hcontext, hextended, h⟩)
  · next input query hform =>
    rw [Logged.gives_ite_bind] at h
    obtain ⟨lifted, hlifted, h⟩ := h
    cases lifted with
    | none => exact .inl h
    | some lifted =>
      obtain ⟨hcontext, hextended⟩ := lifts hlifted
      simp only [Logged.gives_map, Option.some.injEq, exists_eq_right] at h
      exact .inr (.inr ⟨input, query, lifted, hform, hcontext, hextended, h⟩)
  · exact .inl h

theorem simplerTruth_cases {mode : TruthMode}
    (h : (simplerTruth opt mode scope e).Gives (some e')) :
    e.form = .call .boolean [e'] ∧ e'.type.mayBeNumber = false ∨
    (e.form = .call .exists [e'] ∨ mode = .truth ∧ e.form = .call .count [e']) ∧
    e'.type.item.isNode = true ∨
    (mode = .truth ∧ ∃ arg, e.form = .call .count [arg] ∧
      (optimizeCall opt scope .exists [arg] e.location).Gives e') ∨
    ∃ root es, e.form = .filter root es ∧ (simplifyFilter opt scope root es).Gives (some e') := by
  unfold simplerTruth at h
  split at h
  · next arg hform =>
    obtain ⟨hnumber, harg⟩ := Option.ite_none_left_eq_some.mp (Logged.gives_pure.mp h)
    obtain rfl := Option.some.inj harg
    exact .inl ⟨hform, Bool.eq_false_iff.mpr hnumber⟩
  · next arg hform =>
    obtain ⟨hnode, harg⟩ := Option.ite_none_right_eq_some.mp (Logged.gives_pure.mp h)
    obtain rfl := Option.some.inj harg
    exact .inr (.inl ⟨.inl hform, hnode⟩)
  · next arg hform =>
    simp only [Logged.gives_ite, Logged.gives_map, Logged.gives_pure, reduceCtorEq, and_false,
      false_or, Option.some.injEq, Decidable.not_not, exists_eq_right] at h
    obtain ⟨hmode, ⟨hnode, rfl⟩ | ⟨-, h⟩⟩ := h
    · exact .inr (.inl ⟨.inr ⟨hmode, hform⟩, hnode⟩)
    · exact .inr (.inr (.inl ⟨hmode, arg, hform, h⟩))
  · next root es hform => exact .inr (.inr (.inr ⟨root, es, hform, h⟩))
  · cases Logged.gives_pure.mp h

theorem simplify_cases {mode : TruthMode} (h : (simplify opt mode scope e).Gives e') :
    e' = e ∨ ∃ new place, (simplerTruth opt mode scope e).Gives (some new) ∧
    (opt.simplify mode scope (new.at? place)).Gives e' := by
  simp only [simplify, Logged.gives_ite, Logged.gives_bind, Logged.gives_pure] at h
  obtain ⟨-, rfl⟩ | ⟨-, new?, hnew, h⟩ := h
  · exact .inl rfl
  cases new? with
  | none => exact .inl (Logged.gives_pure.mp h).symm
  | some new =>
    obtain ⟨replaced, hreplaced, h⟩ := Logged.gives_bind.mp h
    obtain rfl := replace_gives.mp hreplaced
    exact .inr ⟨new, _, hnew, h⟩

end Truth

end TreeQuery
