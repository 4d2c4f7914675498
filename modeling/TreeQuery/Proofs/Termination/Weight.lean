import TreeQuery.Proofs.Compile.Failures
/-!
# The weight of expressions

The weight of an expression is the number of its nodes, with a share on top for every predicate,
step, argument and operand. The shares are such that each rule for the truth of an expression leaves
less: a predicate that leaves the brackets may need a path or a map around it, and an operand of a
conjunction the call of a function. Checks weigh nothing, for the body of a function is given one
whenever it is compiled. No rule leaves more than there was: here those for truth values,
comparisons, paths, maps, checks and calls.
-/

namespace TreeQuery

/-- The weight of a call without its arguments: a count may become a test of existence. -/
def Builtin.weight : Builtin → Nat
  | .count => 2
  | _ => 1

mutual

/-- How much there is to compile and to simplify in an expression. -/
def Expr.weight : Expr → Nat
  | ⟨form, _, _⟩ => form.weight

def Form.weight : Form → Nat
  | .function f => 1 + f.weight
  | .conjunction operands | .disjunction operands => 1 + weightAll 6 operands
  | .comparison _ _ left right => 1 + left.weight + right.weight
  | .call f args => f.weight + weightAll 1 args
  | .step _ _ predicates => 1 + weightAll 4 predicates
  | .path root steps => 1 + root.weight + weightAll 1 steps
  | .relativePath steps => 1 + weightAll 1 steps
  | .map operands => 1 + weightAll 1 operands
  | .filter root predicates => 1 + root.weight + weightAll 4 predicates
  | .containsText input query => 1 + input.weight + query.weight
  | .conditional condition yes no => 1 + condition.weight + yes.weight + no.weight
  | .apply f args => 1 + f.weight + weightAll 1 args
  | .check operand _ _ => operand.weight
  | _ => 1

/-- What is compiled of a function: a body, and nothing of a function that was given another
signature. -/
def FunctionItem.weight : FunctionItem → Nat
  | .inline _ _ _ body => body.weight
  | .coerced .. => 0

def weightAll (share : Nat) : List Expr → Nat
  | [] => 0
  | e :: es => e.weight + share + weightAll share es

end

theorem Builtin.weight_pos (f : Builtin) : 1 ≤ f.weight := by cases f <;> decide

theorem Expr.weight_pos (e : Expr) : 1 ≤ e.weight := by
  obtain ⟨form, τ, l⟩ := e
  rw [Expr.weight]
  cases form with
  | call f args =>
    have := f.weight_pos
    rw [Form.weight]
    omega
  | check operand target promote =>
    rw [Form.weight]
    exact operand.weight_pos
  | _ =>
    simp only [Form.weight]
    omega

@[simp] theorem Expr.weight_at? (e : Expr) (l : Option Location) : (e.at? l).weight = e.weight := by
  obtain ⟨form, τ, l'⟩ := e
  simp only [Expr.at?, Expr.weight]

@[simp] theorem Expr.weight_literal (values : List Atomic) : (Expr.literal values).weight = 1 := by
  simp only [Expr.literal, Expr.of, Expr.weight, Form.weight]

@[simp] theorem Expr.weight_empty : Expr.empty.weight = 1 := Expr.weight_literal []

@[simp] theorem Expr.weight_ofBool (b : Bool) : (Expr.ofBool b).weight = 1 := Expr.weight_literal _

@[simp] theorem Expr.weight_ofInt (i : Int) : (Expr.ofInt i).weight = 1 := Expr.weight_literal _

@[simp] theorem Expr.weight_contextItem : Expr.contextItem.weight = 1 := by
  simp only [Expr.contextItem, Expr.of, Expr.weight, Form.weight]

@[simp] theorem Expr.weight_ofPositionTest (test : PositionTest) :
    (Expr.ofPositionTest test).weight = 1 := by
  cases test with
  | within w => simp only [Expr.ofPositionTest, Expr.of, Expr.weight, Form.weight]
  | never => simp only [Expr.ofPositionTest, Expr.weight_ofBool]

theorem Expr.weight_of (form : Form) : (Expr.of form).weight = form.weight := by
  rw [Expr.of, Expr.weight]

theorem weightAll_append (share : Nat) (es es' : List Expr) :
    weightAll share (es ++ es') = weightAll share es + weightAll share es' := by
  induction es with
  | nil => simp [weightAll]
  | cons e es ih =>
    simp only [List.cons_append, weightAll, ih]
    omega

theorem weightAll_getLast? (share : Nat) {es : List Expr} {last : Expr}
    (h : es.getLast? = some last) :
    weightAll share es = weightAll share es.dropLast + last.weight + share := by
  obtain ⟨others, rfl⟩ := List.getLast?_eq_some_iff.mp h
  simp only [List.dropLast_concat, weightAll_append, weightAll]
  omega

/-! ### Constants for the context item -/

section

variable {value : Expr}

mutual

theorem Expr.weight_replaceContext (hvalue : value.weight = 1) :
    (e : Expr) → (e.replaceContext value).weight = e.weight
  | ⟨form, τ, l⟩ => by
    by_cases hform : form = .contextItem
    · subst hform
      rw [Expr.replaceContext, Expr.weight_at?, hvalue]
      simp only [Expr.weight, Form.weight]
    · rw [Expr.replaceContext, Expr.weight, Expr.weight]
      · exact Form.weight_replaceContext hvalue form
      · exact hform

theorem Form.weight_replaceContext (hvalue : value.weight = 1) :
    (form : Form) → (form.replaceContext value).weight = form.weight
  | .conjunction es | .disjunction es | .call _ es => by
    simp only [Form.replaceContext, Form.weight, weightAll_replaceContext hvalue _ es]
  | .comparison _ _ a b | .containsText a b => by
    simp only [Form.replaceContext, Form.weight, Expr.weight_replaceContext hvalue a,
      Expr.weight_replaceContext hvalue b]
  | .path e _ | .filter e _ | .check e _ _ => by
    simp only [Form.replaceContext, Form.weight, Expr.weight_replaceContext hvalue e]
  | .map (e :: es) => by
    simp only [Form.replaceContext, Form.weight, weightAll, Expr.weight_replaceContext hvalue e]
  | .conditional a b c => by
    simp only [Form.replaceContext, Form.weight, Expr.weight_replaceContext hvalue a,
      Expr.weight_replaceContext hvalue b, Expr.weight_replaceContext hvalue c]
  | .apply e es => by
    simp only [Form.replaceContext, Form.weight, Expr.weight_replaceContext hvalue e,
      weightAll_replaceContext hvalue _ es]
  | .literal _ | .function _ | .contextItem | .position _ | .step _ _ _ | .relativePath _ | .map [] | .reference _
  | .failure _ => by
    rw [Form.replaceContext] <;> simp

theorem weightAll_replaceContext (hvalue : value.weight = 1) (share : Nat) : (es : List Expr) →
    weightAll share (replaceContextAll value es) = weightAll share es
  | [] => by rw [replaceContextAll]
  | e :: es => by
    simp only [replaceContextAll, weightAll, Expr.weight_replaceContext hvalue e,
      weightAll_replaceContext hvalue share es]

end

end

section

variable {scope : Scope} {e e' : Expr} {l : Option Location}

/-! ### Paths and maps -/

theorem weightAll_flattenSteps (scope : Scope) (es : List Expr) :
    weightAll 1 (flattenSteps scope es) ≤ weightAll 1 es := by
  induction es with
  | nil => simp [flattenSteps]
  | cons e es ih =>
    obtain ⟨form, τ, l⟩ := e
    unfold flattenSteps
    split
    · next inner hform =>
      obtain rfl : form = .relativePath inner := hform
      rw [weightAll_append]
      split <;> simp only [weightAll, Expr.weight, Form.weight] <;> omega
    · simp only [weightAll]
      omega

theorem optimizePath_some_weight {root : Expr} {steps : List Expr}
    (h : (optimizePath scope (some root) steps l).Gives e) :
    e.weight ≤ 1 + root.weight + weightAll 1 steps := by
  have hsteps := weightAll_flattenSteps scope steps
  obtain ⟨-, rfl⟩ | ⟨-, rfl⟩ | ⟨-, place, rfl⟩ := optimizePath_some_cases h
  · rw [Expr.weight_at?]
    omega
  · simp only [Expr.weight, Form.weight]
    omega
  · rw [Expr.weight_at?, Expr.weight_empty]
    omega

theorem optimizePath_none_weight {steps : List Expr}
    (h : (optimizePath scope none steps l).Gives e) : e.weight ≤ 1 + weightAll 1 steps := by
  have hsteps := weightAll_flattenSteps scope steps
  obtain ⟨-, rfl⟩ | ⟨hsingle, -⟩ | ⟨-, rfl⟩ | ⟨-, place, rfl⟩ := optimizePath_none_cases h
  · rw [Expr.weight_at?, Expr.weight_contextItem]
    omega
  · simp only [hsingle, weightAll] at hsteps
    omega
  · simp only [Expr.weight, Form.weight]
    omega
  · rw [Expr.weight_at?, Expr.weight_empty]
    omega

theorem dropContextItems_weight {operands operands' : List Expr}
    (h : (dropContextItems operands).Gives operands') :
    weightAll 1 operands' ≤ weightAll 1 operands := by
  fun_induction dropContextItems operands with
  | case1 first second rest hfirst ih =>
    simp only [Logged.gives_bind, gives_remark, true_and] at h
    obtain ⟨-, h⟩ := h
    have := ih h
    simp only [weightAll] at this ⊢
    omega
  | case2 first second rest hfirst => exact Logged.gives_pure.mp h ▸ Nat.le_refl _
  | case3 operands => exact Logged.gives_pure.mp h ▸ Nat.le_refl _

theorem optimizeMap_weight {operands : List Expr} (h : (optimizeMap scope operands l).Gives e) :
    e.weight ≤ 1 + weightAll 1 operands := by
  obtain ⟨kept, hkept, h⟩ := optimizeMap_cases h
  have hoperands : weightAll 1 kept ≤ weightAll 1 operands := by
    obtain rfl | ⟨-, hdrop⟩ := hkept
    · exact Nat.le_refl _
    · exact dropContextItems_weight hdrop
  obtain ⟨operand, rfl, rfl⟩ | ⟨-, rfl⟩ | ⟨-, place, rfl⟩ := h
  · rw [Expr.weight_at?]
    simp only [weightAll] at hoperands
    omega
  · simp only [Expr.weight, Form.weight]
    omega
  · rw [Expr.weight_at?, Expr.weight_empty]
    omega

end

/-! ### Truth values -/

/-- Compilation and simplification with the optimizer leave no more than there was. -/
structure Optimizer.Lightens (opt : Optimizer) : Prop where
  compile : ∀ {scope : Scope} {e e' : Expr}, (opt.compile scope e).Gives e' → e'.weight ≤ e.weight
  simplify : ∀ {mode : TruthMode} {scope : Scope} {e e' : Expr}, (opt.simplify mode scope e).Gives
    e' → e'.weight ≤ e.weight

theorem foldCall_weight {f : Builtin} {arg new : Expr} (h : foldCall f arg = .ok (some new)) :
    new.weight ≤ f.weight + weightAll 1 [arg] := by
  have hf := f.weight_pos
  simp only [weightAll]
  obtain ⟨-, rfl⟩ | ⟨-, v, rfl⟩ | ⟨-, args, ⟨hform, rfl⟩ | ⟨hform, rfl⟩⟩ := foldCall_cases h
  · omega
  · rw [Expr.weight_literal]
    omega
  all_goals
    obtain ⟨form, τ, l⟩ := arg
    subst hform
    simp only [Expr.call, Expr.weight_of, Expr.weight, Form.weight, Builtin.weight]
    omega

section

variable {opt : Optimizer} (hlight : opt.Lightens) {scope : Scope} {e e' : Expr}
    {l : Option Location}

include hlight

theorem optimizeCall_weight {f : Builtin} {args : List Expr}
    (h : (optimizeCall opt scope f args l).Gives e) : e.weight ≤ f.weight + weightAll 1 args := by
  obtain ⟨args', hargs', h⟩ := optimizeCall_cases h
  have hargs : weightAll 1 args' ≤ weightAll 1 args := by
    obtain rfl | ⟨-, arg, arg', rfl, rfl, hsimple⟩ := hargs'
    · exact Nat.le_refl _
    · have := hlight.simplify hsimple
      simp only [weightAll]
      omega
  obtain ⟨rfl, -⟩ | ⟨arg', new, place, rfl, hfold, rfl⟩ := h
  · rw [Expr.weight, Form.weight]
    omega
  · have hnew := foldCall_weight hfold
    rw [Expr.weight_at?]
    omega

omit hlight in
theorem Form.weight_joined (isAnd : Bool) (es : List Expr) :
    (Form.joined isAnd es).weight = 1 + weightAll 6 es := by
  cases isAnd <;> simp only [joined, Bool.false_eq_true, if_true, if_false, weight]

theorem flattenOperands_weight {isAnd : Bool} :
    {es es' : List Expr} → (flattenOperands opt scope isAnd es).Gives es' →
    weightAll 6 es' ≤ weightAll 6 es
  | [], es', h => Logged.gives_pure.mp h ▸ Nat.le_refl _
  | e :: es, es', h => by
    obtain ⟨⟨form, τ, l⟩, rest, he, hrest, h⟩ := flattenOperands_cons h
    have hfirst := hlight.simplify he
    have hothers := flattenOperands_weight hrest
    obtain rfl | ⟨inner, hform, rfl⟩ := h
    · simp only [weightAll]
      omega
    · subst hform
      rw [Expr.weight, Form.weight_joined] at hfirst
      rw [weightAll_append, weightAll]
      omega

omit hlight in
theorem weightAll_sublist (share : Nat) {es es' : List Expr} (h : es'.Sublist es) :
    weightAll share es' ≤ weightAll share es := by
  induction h with
  | slnil => exact Nat.le_refl _
  | cons e _ ih =>
    rw [weightAll]
    omega
  | cons_cons e _ ih =>
    rw [weightAll, weightAll]
    omega

theorem optimizeLogic_weight {isAnd : Bool} {operands : List Expr}
    (h : (optimizeLogic opt scope isAnd operands l).Gives e) :
    e.weight ≤ 1 + weightAll 6 operands := by
  obtain ⟨flat, hflat, h⟩ := optimizeLogic_cases h
  have hflat := flattenOperands_weight hlight hflat
  obtain rfl | ⟨-, rfl⟩ | ⟨-, rfl⟩ | ⟨operand, hkept, h⟩ | ⟨kept, hkept, rfl⟩ := h
  · rw [Expr.weight, Form.weight_joined]
    omega
  · rw [Expr.weight_at?, Expr.weight_ofBool]
    omega
  · rw [Expr.weight_at?, Expr.weight_ofBool]
    omega
  · have hone := weightAll_sublist 6 (dropConstants_sublist hkept)
    have hcall := optimizeCall_weight hlight h
    simp only [Builtin.weight, weightAll] at hone hcall
    omega
  · have hkept := weightAll_sublist 6 (dropConstants_sublist hkept)
    rw [Expr.weight, Form.weight_joined]
    omega

theorem optimizeConditional_weight {condition yes no : Expr}
    (h : (optimizeConditional opt scope condition yes no l).Gives e) :
    e.weight ≤ 1 + condition.weight + yes.weight + no.weight := by
  obtain ⟨condition', hcondition, ⟨b, -, rfl⟩ | rfl⟩ := optimizeConditional_cases h
  · split <;> omega
  · have := hlight.simplify hcondition
    rw [Expr.weight, Form.weight]
    omega

end

/-! ### Comparisons and searches -/

section

variable {scope : Scope} {e : Expr} {l : Option Location}

theorem optimizeComparison_weight {style : CompareStyle} {op : CompareOp} {left right : Expr}
    (h : (optimizeComparison scope style op left right l).Gives e) :
    e.weight ≤ 1 + left.weight + right.weight := by
  obtain rfl | rfl | ⟨vs, ws, folded, place, -, -, hfolded, rfl⟩ | ⟨-, -, rfl⟩ :=
    optimizeComparison_cases h
  · exact Nat.le_of_eq (by rw [Expr.weight, Form.weight])
  · rw [Expr.weight, Form.weight]
    omega
  · obtain ⟨b, rfl, -⟩ | ⟨-, -, rfl⟩ := foldComparison_cases hfolded
    · rw [Expr.weight_at?, Expr.weight_ofBool]
      omega
    · rw [Expr.weight_at?, Expr.weight_empty]
      omega
  · rw [Expr.weight_at?, Expr.weight_ofBool]
    omega

theorem optimizeSearch_weight {input query : Expr}
    (h : (optimizeSearch scope input query l).Gives e) :
    e.weight ≤ 1 + input.weight + query.weight := by
  obtain rfl | ⟨-, rfl⟩ := optimizeSearch_cases h
  · exact Nat.le_of_eq (by rw [Expr.weight, Form.weight])
  · rw [Expr.weight_at?, Expr.weight_ofBool]
    omega

end

/-! ### Checks -/

section

variable {opt : Optimizer} {scope : Scope} {e e' : Expr} {l : Option Location}

theorem FunctionItem.coerce_weight {f g : FunctionItem} {s : Signature} (h : f.coerce s = .ok g) :
    g.weight ≤ f.weight := by
  unfold FunctionItem.coerce at h
  split at h
  · cases h
  · split at h
    · exact Except.ok.inj h ▸ Nat.le_refl _
    · obtain rfl := Except.ok.inj h
      rw [FunctionItem.weight]
      exact Nat.zero_le _

@[simp] theorem Expr.weight_runtimeCheck {target : SeqType} {promote : Bool} :
    (runtimeCheck e target promote l).weight = e.weight := by
  rw [runtimeCheck, Expr.weight, Form.weight]

theorem Expr.checkAs_weight (hlight : opt.Lightens) {target : SeqType} {promote : Bool} :
    {e e' : Expr} → {l : Option Location} →
    (e.checkAs opt scope target promote l).Gives e' → e'.weight ≤ e.weight
  | ⟨form, τ, place⟩, e', l, h => by
    replace h := Expr.checkAs_cases h
    obtain rfl | ⟨-, rfl⟩ | ⟨f, hform, h⟩ | ⟨values, hform, h⟩ |
      ⟨condition, yes, no, yes', no', hform, hyes, hno, h⟩ := h
    · exact Nat.le_of_eq Expr.weight_runtimeCheck
    · exact Nat.le_refl _
    · subst hform
      obtain ⟨s, g, -, -, -, hg, rfl⟩ := checkFunction_cases h
      have := FunctionItem.coerce_weight hg
      rw [Expr.weight_at?, Expr.weight_of, Expr.weight, Form.weight, Form.weight]
      omega
    · obtain ⟨values', place', -, rfl⟩ := checkLiteral_cases h
      rw [Expr.weight_at?, Expr.weight_literal]
      exact Expr.weight_pos _
    · subst hform
      have hyes := Expr.checkAs_weight hlight hyes
      have hno := Expr.checkAs_weight hlight hno
      have hconditional := optimizeConditional_weight hlight h
      rw [Expr.weight, Form.weight]
      omega

/-! ### Calls of function items -/

theorem dropRedundantChecks_weight : {args args' : List Expr} → {vs : List Variable} →
    (dropRedundantChecks args vs).Gives args' → weightAll 1 args' ≤ weightAll 1 args
  | [], args', vs, h => by
    unfold dropRedundantChecks at h
    obtain rfl := Logged.gives_pure.mp h
    exact Nat.le_refl _
  | _ :: _, args', [], h => by
    unfold dropRedundantChecks at h
    obtain rfl := Logged.gives_pure.mp h
    exact Nat.zero_le _
  | ⟨form, τ, l⟩ :: args, args', v :: vs, h => by
    obtain ⟨arg', rest, hrest, rfl, harg'⟩ := dropRedundantChecks_cons h
    have hrest := dropRedundantChecks_weight hrest
    obtain rfl | ⟨target, promote, hform, -⟩ := harg'
    · simp only [weightAll]
      omega
    · subst hform
      simp only [weightAll, Expr.weight, Form.weight]
      omega

theorem optimizeApply_weight {f : Expr} {args : List Expr}
    (h : (optimizeApply scope f args l).Gives e) : e.weight ≤ 1 + f.weight + weightAll 1 args := by
  obtain ⟨signature, args', -, hargs', rfl⟩ := optimizeApply_cases h
  have hargs : weightAll 1 args' ≤ weightAll 1 args := by
    obtain rfl | ⟨vs, hdrop⟩ := hargs'
    · exact Nat.le_refl _
    · exact dropRedundantChecks_weight hdrop
  rw [Expr.weight, Form.weight]
  omega

end

end TreeQuery
