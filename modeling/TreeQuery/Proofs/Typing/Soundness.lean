import TreeQuery.Proofs.Eval.Reach
import TreeQuery.Proofs.Typing.Calls
import TreeQuery.Proofs.Typing.Compile
/-!
# Static types describe values

Every point that evaluation reaches is annotated for its environment (`Point.Reaches.typed`), so its
static type describes whatever value it ends with (`Query.type_describes`).
-/

namespace TreeQuery

namespace Point

/-- Whether the expression is annotated for the variables and the focus of its environment. -/
def Typed (p : Point) : Prop := ∃ Γ K, p.env.Fits Γ K ∧ p.expr.Annotated Γ K

end Point

/-! ### Steps of evaluation -/

variable {Γ : List Variable} {K : Knowledge}

theorem Form.Annotated.operands {form : Form} (h : form.Annotated Γ K) {e : Expr}
    (he : e ∈ form.operands) : e.Annotated Γ K := by
  cases form
  case conjunction | disjunction | call =>
    simp only [Form.Annotated, Form.operands] at h he
    exact annotatedAll_iff.mp h e he
  case comparison | containsText =>
    simp only [Form.Annotated, Form.operands, List.mem_cons, List.not_mem_nil, or_false] at h he
    rcases he with rfl | rfl
    · exact h.1
    · exact h.2
  case path | filter =>
    simp only [Form.Annotated, Form.operands, List.mem_singleton] at h he
    exact he ▸ h.1
  case map operands =>
    cases operands with
    | nil => simp [Form.operands] at he
    | cons first rest =>
      simp only [Form.Annotated, AnnotatedChain, Form.operands, List.mem_singleton] at h he
      exact he ▸ h.1
  case conditional =>
    simp only [Form.Annotated, Form.operands, List.mem_cons, List.not_mem_nil, or_false] at h he
    rcases he with rfl | rfl | rfl
    · exact h.1
    · exact h.2.1
    · exact h.2.2
  case apply =>
    simp only [Form.Annotated, Form.operands, List.mem_cons] at h he
    rcases he with rfl | he
    · exact h.1
    · exact annotatedAll_iff.mp h.2 e he
  case check =>
    simp only [Form.Annotated, Form.operands, List.mem_singleton] at h he
    exact he ▸ h
  all_goals simp [Form.operands] at he

/-- A body is annotated for the environment that a call opens it in. -/
theorem FunctionItem.Opens.typed {env env' : Env} {l : Option Location} {f : FunctionItem}
    {args : List (List Item)} {body : Expr} (h : f.Opens env l args env' body) (henv : env.Sane)
    (hf : f.Good) (hargs : ∀ arg ∈ args, ∀ item ∈ arg, item.Good) :
    ∃ Γ K, env'.Fits Γ K ∧ body.Annotated Γ K := by
  induction h with
  | inline harity hlocals =>
    rw [FunctionItem.Good] at hf
    obtain ⟨hparams, ⟨Γ, hbody⟩, -⟩ := hf
    rw [Signature.arity, hparams, List.length_map] at harity
    exact ⟨_, _, henv.enter hlocals harity hargs, hbody⟩
  | coerced hchecked _ ih =>
    rw [FunctionItem.Good] at hf
    exact ih hf (checkArguments_good hchecked hargs)

namespace Point

theorem typed_of_chain {d : Nat} {env : Env} {before later : List Expr} {e : Expr} {L : Knowledge}
    {c : Cursor} {scoring scoring' : Bool} {item : Item} {size : Option Nat} {position : Nat}
    (henv : env.Fits Γ L) (hchain : AnnotatedChain Γ K (before ++ e :: later))
    (hc : c.Supplies env.forest (chainOffers K before))
    (hitem : item ∈ delivered (c.deliveries scoring)) :
    (⟨d, env.focusOn size scoring' position item, e⟩ : Point).Typed := by
  obtain ⟨-, hchain⟩ := annotatedChain_append.mp hchain
  rw [AnnotatedChain] at hchain
  exact ⟨Γ, _, henv.focusOn (hc scoring item hitem), hchain.1⟩

theorem Enters.typed {p q : Point} (h : p.Enters q) (hp : p.Typed) : q.Typed := by
  obtain ⟨Γ, K, henv, he⟩ := hp
  cases h with simp only [Expr.Annotated] at he
  | operand hoperand => exact ⟨Γ, K, henv, he.2.operands hoperand⟩
  | filter hroot hitem hpredicate =>
    simp only [Form.Annotated] at he
    have hc := he.2.1.supplies (Expr.iterate_fits (callWithin_sound _) henv he.2.1 hroot)
    exact ⟨Γ, _, henv.focusOn (hc _ _ hitem), annotatedAll_iff.mp he.2.2 _ hpredicate⟩
  | step hitem hnode hpasses hpredicate =>
    simp only [Form.Annotated] at he
    refine ⟨Γ, _, henv.focusOn ⟨fun t ht => ?_, ?_⟩, annotatedAll_iff.mp he.2 _ hpredicate⟩
    · exact ht _ _ _ hnode hpasses
    · trivial
  | path hroot hbefore hitem =>
    simp only [Form.Annotated] at he
    have hc := he.2.1.supplies (Expr.iterate_fits (callWithin_sound _) henv he.2.1 hroot)
    have hchain := (annotatedChain_append.mp he.2.2).1
    exact typed_of_chain henv he.2.2
      (followSteps_fits (callWithin_sound _) henv hchain hc hbefore).1 hitem
  | relativePath hstart hbefore hitem =>
    simp only [Form.Annotated] at he
    have hc : (Cursor.single _).Supplies _ K :=
      Cursor.supplies_ofList (by simpa using henv.focus _ hstart)
    have hchain := (annotatedChain_append.mp he.2).1
    exact typed_of_chain henv he.2
      (followSteps_fits (callWithin_sound _) henv hchain hc hbefore).1 hitem
  | map hfirst hbefore hitem =>
    simp only [Form.Annotated, List.cons_append, AnnotatedChain] at he
    have hc := he.2.1.supplies (Expr.iterate_fits (callWithin_sound _) henv he.2.1 hfirst)
    have hchain := (annotatedChain_append.mp he.2.2).1
    exact typed_of_chain henv he.2.2
      (followMaps_fits (callWithin_sound _) henv hchain hc hbefore).1 hitem
  | body hfunction hvalues hopens =>
    simp only [Form.Annotated] at he
    have hf := Expr.value_fits (callWithin_sound _) henv he.2.1 hfunction _ he.2.1.infers
    exact hopens.typed henv.toSane (hf.good _ List.mem_cons_self)
      (valuesOf_good (callWithin_sound _) henv he.2.2 hvalues)

/-- All that evaluation gets to is annotated. -/
theorem Reaches.typed {p q : Point} (h : p.Reaches q) (hp : p.Typed) : q.Typed := by
  induction h with
  | refl => exact hp
  | tail _ hstep ih => exact hstep.typed ih

theorem Typed.describes {p : Point} (hp : p.Typed) {items : List Item} (h : p.EndsWith items) :
    p.expr.type.Describes p.env.forest items := by
  obtain ⟨Γ, K, henv, he⟩ := hp
  rcases h with h | ⟨c, scoring, hc, hitems⟩
  · exact (Expr.value_fits (callWithin_sound _) henv he h _ he.infers).describes
  · exact ((Expr.iterate_fits (callWithin_sound _) henv he hc _ he.infers).drain hitems).describes

end Point

/-! ### Queries -/

/-- A compiled query is annotated for every context that its static context speaks of. -/
theorem Query.start_typed {s : StaticContext} {e : Expr} {q : Query} {c : Context} (he : e.Plain)
    (hq : compile s e = .ok q) (hitem : ∀ item, c.item = some item →
      (∀ f, item ≠ .function f) ∧ ∀ t, s.item = some t → item.isInstance c.forest t = true)
    (hglobals : ∀ name value, c.globals.lookup name = some value →
      ∀ item ∈ value, ∀ f, item ≠ .function f) : (q.start c).Typed := by
  have good {item : Item} (h : ∀ f, item ≠ .function f) : item.Good := by
    cases item with
    | function f => exact absurd rfl (h f)
    | node _ | atomic _ => trivial
  refine ⟨s.scope.visible, s.scope.known, ⟨⟨?_⟩, ?_, ?_⟩, ?_⟩
  · exact fun name value hvalue item hmem => good (hglobals name value hvalue item hmem)
  · exact fun name value hvalue => by simp [start, Env.ofContext] at hvalue
  · intro item hfocus
    have hfocus : c.item = some item := by
      cases hc : c.item <;> simp [start, Env.ofContext, Focus.ofItem?, Focus.none, hc] at hfocus
      rw [hfocus]
    exact ⟨fun t ht => (hitem item hfocus).2 t ht, good (hitem item hfocus).1⟩
  · rw [compile] at hq
    cases hcompiled : (e.compile s.optimizer s.scope).outcome with
    | error f => simp [hcompiled, Except.map] at hq
    | ok e' =>
      obtain rfl : _ = q := by simpa only [hcompiled, Except.map, Except.ok.injEq] using hq
      exact Expr.compile_annotated (optimizerWithin_sound s.optimizeDepth)
        (fun _ => False.elim) he hcompiled

/-- Wherever evaluation gets, the static type of the expression there describes the value that it
ends with. -/
theorem Query.type_describes {s : StaticContext} {e : Expr} {q : Query} {c : Context} (he : e.Plain)
    (hq : compile s e = .ok q)
    (hitem : ∀ item, c.item = some item →
      (∀ f, item ≠ .function f) ∧ ∀ t, s.item = some t → item.isInstance c.forest t = true)
    (hglobals : ∀ name value, c.globals.lookup name = some value →
      ∀ item ∈ value, ∀ f, item ≠ .function f) {p : Point} (hp : (q.start c).Reaches p)
    {items : List Item} (hitems : p.EndsWith items) : p.expr.type.Describes p.env.forest items :=
  (hp.typed (start_typed he hq hitem hglobals)).describes hitems

/-- In the predicate of a filter of integers the context item is described as one integer. -/
theorem Query.type_describes_item_in_predicate :
    let e : Expr :=
    .of (.filter (.literal [.integer 10, .integer 20])
      [.of (.comparison .value .eq .contextItem (.ofInt 20))])
    let s : StaticContext := { item := none, optimizeDepth := 3 }
    let c : Context := { forest := .empty false }
    ∃ q p, compile s e = .ok q ∧ (q.start c).Reaches p ∧ p.EndsWith [.atomic (.integer 20)] ∧
      p.expr.type = .of (.atomic .integer) .one ∧
        p.expr.type.Describes p.env.forest [.atomic (.integer 20)] := by
  intro e s c
  have plain : e.Plain := ⟨⟨by decide, .inl rfl⟩, ⟨trivial, by decide, .inl rfl⟩, trivial⟩
  let item : Expr := ⟨.contextItem, .of (.atomic .integer) .one, none⟩
  let predicate : Expr := ⟨.comparison .value .eq item (.ofInt 20), .boolean, none⟩
  let root : Expr := .literal [.integer 10, .integer 20]
  let q : Query := ⟨⟨.filter root [predicate], .of (.atomic .integer) .zeroOrMore, none⟩, []⟩
  let env : Env := (Env.ofContext c).focusOn none false 2 (.atomic (.integer 20))
  have compiled : compile s e = .ok q := rfl
  have second : .atomic (.integer 20) ∈
      delivered
        ((Cursor.ofList [.atomic (.integer 10), .atomic (.integer 20)]).deliveries false) := by simp
  have filtered : (q.start c).Enters ⟨c.callDepth, env, predicate⟩ :=
    .filter rfl second List.mem_cons_self
  have compared : Point.Enters ⟨c.callDepth, env, predicate⟩ ⟨c.callDepth, env, item⟩ :=
    .operand List.mem_cons_self
  have reached : (q.start c).Reaches ⟨c.callDepth, env, item⟩ :=
    .tail (.tail .refl filtered) compared
  have ended : Point.EndsWith ⟨c.callDepth, env, item⟩ [.atomic (.integer 20)] := .inl rfl
  exact ⟨q, _, compiled, reached, ended, rfl,
    type_describes plain compiled (fun _ h => by cases h) (fun _ _ h => by cases h) reached ended⟩

end TreeQuery
