import TreeQuery.Eval.Call
import TreeQuery.Proofs.Eval.Asked
/-!
# What evaluation asks of the focus

An expression that does not depend on the context item is evaluated the same whatever item is in
focus, and one that does not depend on the position the same at every position and for every size:
not only to the same value, but with the same cursor, failures and log (`Expr.iterate_withFocus`,
`Expr.value_withFocus`, `Expr.truth_withFocus`). More exactly, it is evaluated the same in all foci
that agree in what it asks for (`Focus.Agree`). A call reaches the focus only by the caller that
evaluation is given, so that one must not look at it; `callWithin` does not.
-/

namespace TreeQuery

/-- Foci that are alike in all that is depended on. -/
structure Focus.Alike (dep : Dependency → Bool) (f g : Focus) : Prop where
  item : dep .context = true → f.item = g.item
  place : dep .position = true → f.item.isSome = g.item.isSome ∧
    f.position = g.position ∧ f.size = g.size

namespace Focus.Alike

variable {dep a b : Dependency → Bool} {f g : Focus}

theorem mono (h : Alike dep f g) (hd : ∀ d, a d = true → dep d = true) : Alike a f g :=
  ⟨fun ha => h.item (hd _ ha), fun ha => h.place (hd _ ha)⟩

theorem left (h : Alike (fun d => a d || b d) f g) : Alike a f g := h.mono fun d hd => by simp [hd]

theorem right (h : Alike (fun d => a d || b d) f g) : Alike b f g := h.mono fun d hd => by simp [hd]

theorem placed (hd : dep .position = false) (position : Nat) (size : Option Nat) :
    Alike dep f ⟨f.item, position, size⟩ :=
  ⟨fun _ => rfl, fun h => absurd h (by simp [hd])⟩

theorem of_neither (hc : dep .context = false) (hp : dep .position = false) : Alike dep f g :=
  ⟨fun h => absurd h (by simp [hc]), fun h => absurd h (by simp [hp])⟩

end Focus.Alike

/-- Foci that are alike in all that is asked of them. -/
structure Focus.Agree (asked : FocusPart → Bool) (f g : Focus) : Prop where
  item : asked .item = true → f.item = g.item
  root : asked .root = true → f.item = g.item
  number : asked .number = true → f.position = g.position
  place : asked .place = true → f.item.isSome = g.item.isSome ∧
    f.position = g.position ∧ f.size = g.size

namespace Focus.Agree

variable {asked a b : FocusPart → Bool} {f g : Focus}

theorem mono (h : Agree asked f g) (ha : ∀ p, a p = true → asked p = true) : Agree a f g :=
  ⟨fun hp => h.item (ha _ hp), fun hp => h.root (ha _ hp), fun hp => h.number (ha _ hp),
    fun hp => h.place (ha _ hp)⟩

theorem left (h : Agree (fun p => a p || b p) f g) : Agree a f g := h.mono fun p hp => by simp [hp]

theorem right (h : Agree (fun p => a p || b p) f g) : Agree b f g := h.mono fun p hp => by simp [hp]

end Focus.Agree

theorem Focus.Alike.agrees {dep : Dependency → Bool} {asked : FocusPart → Bool} {f g : Focus}
    (h : Alike dep f g) (hasked : ∀ p, asked p = true → dep p.dependency = true) :
    Agree asked f g :=
  ⟨fun hp => h.item (hasked _ hp), fun hp => h.item (hasked _ hp),
    fun hp => (h.place (hasked _ hp)).2.1,
    fun hp => h.place (hasked _ hp)⟩

/-- The environment with another position and size for its context item. -/
def Env.placed (env : Env) (position : Nat) (size : Option Nat) : Env :=
  env.withFocus ⟨env.focus.item, position, size⟩

/-- A caller that takes no notice of the focus of the call. -/
def Caller.IgnoresFocus (call : Caller) : Prop :=
  ∀ (env : Env) (focus : Focus), call (env.withFocus focus) = call env

section WithFocus

variable (env : Env) (focus : Focus)

namespace Env

@[simp] theorem forest_withFocus : (env.withFocus focus).forest = env.forest := rfl

@[simp] theorem scoring_withFocus : (env.withFocus focus).scoring = env.scoring := rfl

@[simp] theorem focusOn_withFocus : (env.withFocus focus).focusOn = env.focusOn := rfl

@[simp] theorem texts_withFocus : (env.withFocus focus).texts = env.texts := rfl

@[simp] theorem search_withFocus : (env.withFocus focus).search = env.search := rfl

@[simp] theorem bindParams_withFocus (l : Option Location) :
    (vs : List Variable) → (args : List (List Item)) →
    (env.withFocus focus).bindParams l vs args = env.bindParams l vs args
  | [], _ => rfl
  | _ :: _, [] => rfl
  | v :: vs, arg :: args => by
    simp only [Env.bindParams, bindParams_withFocus l vs args]
    rfl

end Env

/-! ### Calls of function items -/

theorem checkArguments_withFocus (l : Option Location) :
    (args : List (List Item)) → (ts : List SeqType) →
      checkArguments (env.withFocus focus) l args ts = checkArguments env l args ts
  | [], _ => rfl
  | _ :: _, [] => rfl
  | arg :: args, t :: ts => by
    simp only [checkArguments, checkArguments_withFocus l args ts]
    rfl

theorem FunctionItem.callWith_withFocus (body : Env → Expr → Run (List Item))
    (l : Option Location) : (f : FunctionItem) → (args : List (List Item)) →
      f.callWith body (env.withFocus focus) args l = f.callWith body env args l
  | .inline name signature params e, args => by
    simp only [FunctionItem.callWith, Env.bindParams_withFocus]
    rfl
  | .coerced name signature inner, args => by
    simp only [FunctionItem.callWith, checkArguments_withFocus,
      FunctionItem.callWith_withFocus body l inner]
    rfl

end WithFocus

theorem callWithin_ignoresFocus : (depth : Nat) → (callWithin depth).IgnoresFocus
  | 0 => fun _ _ => rfl
  | depth + 1 => fun env focus => by
    funext f args l
    exact FunctionItem.callWith_withFocus env focus _ l f args

/-! ### Operands with a focus of their own -/

section Operands

variable (call : Caller) (env : Env) (focus : Focus)

@[simp] theorem Cursor.filterBy_withFocus (predicates : List Expr)
    (mean : Env → Run (Option Number)) (inTurn : List (Item × Number) → Run (List (Item × Number)))
    (c : Cursor) :
    c.filterBy (env.withFocus focus) predicates mean inTurn =
    c.filterBy env predicates mean inTurn := rfl

@[simp] theorem Cursor.follow_withFocus (operand : Expr) (nodesOnly : Bool)
    (iterate : Env → Run Cursor) (c : Cursor) :
    c.follow (env.withFocus focus) operand nodesOnly iterate =
    c.follow env operand nodesOnly iterate := rfl

@[simp] theorem filterInTurn_withFocus : (es : List Expr) → (items : List (Item × Number)) →
    filterInTurn call (env.withFocus focus) items es = filterInTurn call env items es
  | [], _ => rfl
  | e :: es, items => by
    simp only [filterInTurn, filterInTurn_withFocus es]
    rfl

@[simp] theorem followSteps_withFocus : (es : List Expr) → (c : Cursor) → (atMostOne : Bool) →
    followSteps call (env.withFocus focus) c atMostOne es = followSteps call env c atMostOne es
  | [], _, _ => rfl
  | e :: es, c, atMostOne => by
    simp only [followSteps, followSteps_withFocus es]
    rfl

@[simp] theorem followMaps_withFocus : (es : List Expr) → (c : Cursor) →
    followMaps call (env.withFocus focus) c es = followMaps call env c es
  | [], _ => rfl
  | e :: es, c => by
    simp only [followMaps, followMaps_withFocus es]
    rfl

end Operands

/-! ### Expressions -/

theorem Expr.value_of_not_check {call : Caller} {env : Env} {form : Form} {type : StaticType} {location : Option Location}
    (h : ∀ operand target promote, form ≠ .check operand target promote) :
    Expr.value call env ⟨form, type, location⟩ = (do
      let cursor ← (form.iterate call env location).locate location
      cursor.drain env.scoring) := by
  rw [Expr.value]
  exact h

theorem Expr.test_of_other {call : Caller} {env : Env} {form : Form} {type : StaticType} {location : Option Location}
    (hw : ∀ w, form ≠ .position w) (hs : ∀ input query, form ≠ .containsText input query) :
    Expr.test call env ⟨form, type, location⟩ = (do
      let cursor ← (form.iterate call env location).locate location
      let holds ← cursor.predicateTruth env.scoring location env.focus.position
      return if holds then some .zero else none) := by
  rw [Expr.test]
  · exact hw
  · exact hs

section Env

variable {env : Env} {focus : Focus}

theorem Env.contextItem_withFocus (h : env.focus.item = focus.item) :
    (env.withFocus focus).contextItem = env.contextItem := by
  simp only [contextItem, withFocus, h]

variable (h : env.focus.item.isSome = focus.item.isSome ∧ env.focus.position = focus.position ∧
      env.focus.size = focus.size)

include h

theorem Env.contextPosition_withFocus :
    (env.withFocus focus).contextPosition = env.contextPosition := by
  obtain ⟨hitem, hposition, -⟩ := h
  simp only [contextPosition, withFocus, hposition]
  cases hf : focus.item <;> cases he : env.focus.item <;> simp [hf, he] at hitem ⊢

theorem Env.contextSize_withFocus : (env.withFocus focus).contextSize = env.contextSize := by
  obtain ⟨hitem, -, hsize⟩ := h
  simp only [contextSize, withFocus, hsize]
  cases hf : focus.item <;> cases he : env.focus.item <;> cases focus.size <;>
    simp [hf, he] at hitem ⊢

end Env

section Expressions

variable {call : Caller} {env : Env} {focus : Focus}

mutual

theorem Expr.iterate_agree (hc : call.IgnoresFocus) :
    (e : Expr) → Focus.Agree (e.asks ·) env.focus focus →
    e.iterate call (env.withFocus focus) = e.iterate call env
  | ⟨form, _, location⟩, h => by
    have h : Focus.Agree (form.asks ·) env.focus focus := h.mono fun p hp => by rwa [Expr.asks]
    rw [Expr.iterate, Expr.iterate, Form.iterate_agree hc form location h]

theorem Expr.value_agree (hc : call.IgnoresFocus) :
    (e : Expr) → Focus.Agree (e.asks ·) env.focus focus →
    e.value call (env.withFocus focus) = e.value call env
  | ⟨form, type, location⟩, h => by
    have h : Focus.Agree (form.asks ·) env.focus focus := h.mono fun p hp => by rwa [Expr.asks]
    have hiterate := Form.iterate_agree hc form location h
    cases form with
    | check operand target promote =>
      have h : Focus.Agree (operand.asks ·) env.focus focus := h.mono fun p hp => by rwa [Form.asks]
      simp only [Expr.value, Env.forest_withFocus, Expr.value_agree hc operand h]
    | _ =>
      rw [Expr.value_of_not_check, Expr.value_of_not_check, hiterate, Env.scoring_withFocus]
      all_goals nofun

theorem Expr.truth_agree (hc : call.IgnoresFocus) :
    (e : Expr) → Focus.Agree (e.asks ·) env.focus focus →
    e.truth call (env.withFocus focus) = e.truth call env
  | ⟨form, _, location⟩, h => by
    have h : Focus.Agree (form.asks ·) env.focus focus := h.mono fun p hp => by rwa [Expr.asks]
    rw [Expr.truth, Expr.truth, Form.iterate_agree hc form location h, Env.scoring_withFocus]

theorem Form.iterate_agree (hc : call.IgnoresFocus) :
    (form : Form) → (l : Option Location) → Focus.Agree (form.asks ·) env.focus focus →
    form.iterate call (env.withFocus focus) l = form.iterate call env l
  | .literal _, _, _ => rfl
  | .function _, _, _ => rfl
  | .contextItem, _, h => by
    simp only [Form.iterate, Env.contextItem_withFocus (h.item rfl)]
  | .position _, _, h => by
    simp only [Form.iterate, h.number rfl, Env.withFocus]
  | .conjunction operands, _, h => by
    simp only [Form.asks] at h
    simp only [Form.iterate, allTrue_agree hc operands h]
  | .disjunction operands, _, h => by
    simp only [Form.asks] at h
    simp only [Form.iterate, anyTrue_agree hc operands h]
  | .comparison _ _ left right, _, h => by
    simp only [Form.asks] at h
    simp only [Form.iterate, Expr.value_agree hc left h.left, Expr.value_agree hc right h.right,
      Env.forest_withFocus]
  | .call f args, _, h => by
    simp only [Form.asks] at h
    simp only [Form.iterate, callBuiltin_agree hc f args h.left h.right]
  | .step _ _ predicates, _, h => by
    simp only [Form.iterate, Env.contextItem_withFocus (h.item (by simp [Form.asks])),
      Env.forest_withFocus,
      Cursor.filterBy_withFocus, filterInTurn_withFocus, Env.scoring_withFocus]
    rfl
  | .path root steps, _, h => by
    simp only [Form.asks] at h
    simp only [Form.iterate, Expr.iterate_agree hc root h, followSteps_withFocus]
  | .relativePath steps, _, h => by
    simp only [Form.iterate, Env.contextItem_withFocus (h.root (by simp [Form.asks])),
      followSteps_withFocus]
  | .map [], _, _ => rfl
  | .map (first :: rest), _, h => by
    simp only [Form.asks] at h
    simp only [Form.iterate, Expr.iterate_agree hc first h, followMaps_withFocus]
  | .filter root predicates, _, h => by
    simp only [Form.asks] at h
    simp only [Form.iterate, Expr.iterate_agree hc root h, Cursor.filterBy_withFocus,
      filterInTurn_withFocus]
  | .containsText input query, _, h => by
    simp only [Form.asks] at h
    simp only [Form.iterate, Env.search_withFocus, Expr.value_agree hc query h.right,
      Expr.iterate_agree hc input h.left]
  | .conditional condition yes no, _, h => by
    simp only [Form.asks] at h
    simp only [Form.iterate, Expr.truth_agree hc condition h.left.left,
      Expr.iterate_agree hc yes h.left.right, Expr.iterate_agree hc no h.right]
  | .reference _, _, _ => rfl
  | .apply f args, _, h => by
    simp only [Form.asks] at h
    simp only [Form.iterate, Expr.value_agree hc f h.left,
      valuesOf_agree hc args h.right, hc env focus]
  | .check operand target promote, _, h => by
    simp only [Form.asks] at h
    simp only [Form.iterate, Expr.iterate_agree hc operand h, Env.forest_withFocus]
  | .failure _, _, _ => rfl

theorem callBuiltin_agree (hc : call.IgnoresFocus) (f : Builtin) : (args : List Expr) →
    Focus.Agree (fun p => p == .place && (f == .position || f == .last)) env.focus focus →
    Focus.Agree (anyAsks · args) env.focus focus →
    callBuiltin call (env.withFocus focus) f args = callBuiltin call env f args
  | [], hf, _ => by
    cases f with
    | position => simp only [callBuiltin, Env.contextPosition_withFocus (hf.place rfl)]
    | last => simp only [callBuiltin, Env.contextSize_withFocus (hf.place rfl)]
    | _ => rfl
  | arg :: args, hf, h => by
    simp only [anyAsks] at h
    cases f with
    | position => simp only [callBuiltin, Env.contextPosition_withFocus (hf.place rfl)]
    | last => simp only [callBuiltin, Env.contextSize_withFocus (hf.place rfl)]
    | boolean | not => simp only [callBuiltin, Expr.truth_agree hc arg h.left]
    | «exists» | empty | count =>
      simp only [callBuiltin, Expr.iterate_agree hc arg h.left, Env.scoring_withFocus]
    | trace =>
      simp only [callBuiltin, Expr.value_agree hc arg h.left, labelOf_agree hc args h.right]

theorem labelOf_agree (hc : call.IgnoresFocus) :
    (es : List Expr) → Focus.Agree (anyAsks · es) env.focus focus →
    labelOf call (env.withFocus focus) es = labelOf call env es
  | [], _ => rfl
  | e :: es, h => by
    simp only [anyAsks] at h
    simp only [labelOf, Expr.value_agree hc e h.left, Env.texts_withFocus]

theorem allTrue_agree (hc : call.IgnoresFocus) :
    (es : List Expr) → Focus.Agree (anyAsks · es) env.focus focus →
    allTrue call (env.withFocus focus) es = allTrue call env es
  | [], _ => rfl
  | e :: es, h => by
    simp only [anyAsks] at h
    simp only [allTrue, Expr.truth_agree hc e h.left, allTrue_agree hc es h.right]

theorem anyTrue_agree (hc : call.IgnoresFocus) :
    (es : List Expr) → Focus.Agree (anyAsks · es) env.focus focus →
    anyTrue call (env.withFocus focus) es = anyTrue call env es
  | [], _ => rfl
  | e :: es, h => by
    simp only [anyAsks] at h
    simp only [anyTrue, Expr.truth_agree hc e h.left, anyTrue_agree hc es h.right]

theorem valuesOf_agree (hc : call.IgnoresFocus) :
    (es : List Expr) → Focus.Agree (anyAsks · es) env.focus focus →
    valuesOf call (env.withFocus focus) es = valuesOf call env es
  | [], _ => rfl
  | e :: es, h => by
    simp only [anyAsks] at h
    simp only [valuesOf, Expr.value_agree hc e h.left, valuesOf_agree hc es h.right]

end

variable (hc : call.IgnoresFocus)

include hc

/-! ### By dependencies -/

theorem Expr.iterate_withFocus (e : Expr) (h : Focus.Alike (e.dependsOn ·) env.focus focus) :
    e.iterate call (env.withFocus focus) = e.iterate call env :=
    Expr.iterate_agree hc e (h.agrees fun _ => e.dependsOn_of_asks)

theorem Expr.value_withFocus (e : Expr) (h : Focus.Alike (e.dependsOn ·) env.focus focus) :
    e.value call (env.withFocus focus) = e.value call env :=
    Expr.value_agree hc e (h.agrees fun _ => e.dependsOn_of_asks)

theorem Expr.truth_withFocus (e : Expr) (h : Focus.Alike (e.dependsOn ·) env.focus focus) :
    e.truth call (env.withFocus focus) = e.truth call env :=
    Expr.truth_agree hc e (h.agrees fun _ => e.dependsOn_of_asks)

theorem Form.iterate_withFocus (form : Form) (l : Option Location)
    (h : Focus.Alike (form.dependsOn ·) env.focus focus) :
    form.iterate call (env.withFocus focus) l = form.iterate call env l :=
  Form.iterate_agree hc form l (h.agrees fun _ => form.dependsOn_of_asks)

end Expressions

theorem Expr.Unfocused.agrees {e : Expr} (he : e.Unfocused) {f g : Focus}
    (h : f.position = g.position) : Focus.Agree (e.asks ·) f g where
  item hasked := absurd hasked (by simp [he .item (by decide)])
  root hasked := absurd hasked (by simp [he .root (by decide)])
  number _ := h
  place hasked := absurd hasked (by simp [he .place (by decide)])

/-! ### Predicates -/

variable {call : Caller} {env : Env}

def Env.sized (env : Env) (size : Option Nat) : Env := env.placed env.focus.position size

def Expr.IsUnsized (e : Expr) : Prop := e.dependsOn .position = false ∨ e.window?.isSome = true

theorem isUnsized_of_not_positional {predicates : List Expr}
    (h : predicates.any Expr.isPositional = false) : ∀ e ∈ predicates, e.IsUnsized := by
  intro e he
  have := List.any_eq_false.mp h e he
  simp only [Expr.isPositional, Bool.or_eq_true, not_or, Bool.not_eq_true] at this
  exact .inl this.2

theorem isUnsized_of_leadingWindow? {predicates : List Expr} {w : Window}
    (h : leadingWindow? predicates = some w) : ∀ e ∈ predicates, e.IsUnsized := by
  cases predicates with
  | nil => cases h
  | cons first rest =>
    simp only [leadingWindow?] at h
    split at h
    · cases h
    · next hrest =>
      rw [List.forall_mem_cons]
      exact ⟨.inr (by rw [h]; rfl), isUnsized_of_not_positional (by simpa using hrest)⟩

theorem Expr.test_sized (hc : call.IgnoresFocus) {e : Expr} (h : e.IsUnsized) (size : Option Nat) :
    e.test call (env.sized size) = e.test call env := by
  obtain ⟨form, type, location⟩ := e
  by_cases hw : ∃ w, form = .position w
  · obtain ⟨w, rfl⟩ := hw
    rfl
  have hform : form.dependsOn .position = false := by
    rcases h with h | h
    · simpa [Expr.dependsOn] using h
    · cases form <;> simp [Expr.window?] at h hw
  by_cases hs : ∃ input query, form = .containsText input query
  · obtain ⟨input, query, rfl⟩ := hs
    simp only [Form.dependsOn, Bool.or_eq_false_iff] at hform
    simp only [Expr.test, Env.sized, Env.placed, Env.search_withFocus,
      Expr.value_withFocus hc query (.placed hform.2 _ size),
        Expr.iterate_withFocus hc input (.placed hform.1 _ size)]
  simp only [not_exists] at hw hs
  rw [Expr.test_of_other hw hs, Expr.test_of_other hw hs]
  rw [Env.sized, Env.placed, Form.iterate_withFocus hc form location (.placed hform _ size)]
  rfl

theorem meanTest_sized (hc : call.IgnoresFocus) (size : Option Nat) (count : Nat) :
    (es : List Expr) → (∀ e ∈ es, e.IsUnsized) → (total : Number) →
      meanTest call (env.sized size) count total es = meanTest call env count total es
  | [], _, _ => rfl
  | e :: es, h, total => by
    rw [List.forall_mem_cons] at h
    simp only [meanTest, Expr.test_sized hc h.1 size, meanTest_sized hc size count es h.2]

end TreeQuery
