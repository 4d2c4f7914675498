import TreeQuery.Proofs.Typing.Judgement
/-!
# Expressions that can be compiled

Compilation takes the static types of constants and of windows from the expression and finds all
others anew. An expression is built right if these are the types they should be. Expressions that
were compiled once are, and stay so when a constant takes the place of the context item.
-/

namespace TreeQuery

mutual

/-- Whether constants and windows carry static types of theirs, and coerced functions are among
those allowed. -/
def Expr.Built (allowed : FunctionItem → Prop) : Expr → Prop
  | ⟨form, τ, _⟩ => form.Built allowed τ

def Form.Built (allowed : FunctionItem → Prop) (τ : StaticType) : Form → Prop
  | .literal values => TypesConstants τ values
  | .position _ => τ = .boolean
  | .function f => f.Built allowed
  | .contextItem | .reference _ | .failure _ => True
  | .conjunction es | .disjunction es | .call _ es | .step _ _ es | .relativePath es | .map es =>
    BuiltAll allowed es
  | .comparison _ _ a b | .containsText a b => a.Built allowed ∧ b.Built allowed
  | .path e es | .filter e es | .apply e es => e.Built allowed ∧ BuiltAll allowed es
  | .conditional a b c => a.Built allowed ∧ b.Built allowed ∧ c.Built allowed
  | .check e _ _ => e.Built allowed

/-- Whether a function has the signature of its parameters and a body that is built right. -/
def FunctionItem.Built (allowed : FunctionItem → Prop) : FunctionItem → Prop
  | .inline _ signature params body =>
    signature.params = params.map Variable.type ∧ body.Built allowed
  | .coerced name signature inner => allowed (.coerced name signature inner)

def BuiltAll (allowed : FunctionItem → Prop) : List Expr → Prop
  | [] => True
  | e :: es => e.Built allowed ∧ BuiltAll allowed es

end

/-- An expression as the constructors of expressions build it, all of whose function items are
inline ones. -/
abbrev Expr.Plain (e : Expr) : Prop := e.Built fun _ => False

mutual

theorem Expr.Annotated.built : {e : Expr} → {Γ : List Variable} → {K : Knowledge} →
    e.Annotated Γ K →
    e.Built FunctionItem.Good
  | ⟨form, _, _⟩, _, _, he => by
    rw [Expr.Annotated] at he
    rw [Expr.Built]
    exact Form.Annotated.built he.1 he.2

theorem Form.Annotated.built : {form : Form} → {Γ : List Variable} → {K : Knowledge} →
    {τ : StaticType} →
    form.Infers K τ → form.Annotated Γ K → form.Built FunctionItem.Good τ
  | .literal _, _, _, _, hτ, _ | .position _, _, _, _, hτ, _ => by
    simpa only [Form.Infers, Form.Built] using hτ
  | .contextItem, _, _, _, _, _ | .reference _, _, _, _, _, _ | .failure _, _, _, _, _, _ => trivial
  | .function _, _, _, _, _, h => by
    simp only [Form.Annotated, Form.Built] at h ⊢
    exact FunctionItem.Good.built h
  | .conjunction _, _, _, _, _, h | .disjunction _, _, _, _, _, h | .call .., _, _, _, _,
      h | .step .., _, _, _, _, h => by
    simp only [Form.Annotated, Form.Built] at h ⊢
    exact AnnotatedAll.built h
  | .relativePath _, _, _, _, _, h | .map _, _, _, _, _, h => by
    simp only [Form.Annotated, Form.Built] at h ⊢
    exact AnnotatedChain.built h
  | .comparison .., _, _, _, _, h | .containsText .., _, _, _, _, h => by
    simp only [Form.Annotated, Form.Built] at h ⊢
    exact ⟨h.1.built, h.2.built⟩
  | .path .., _, _, _, _, h => by
    simp only [Form.Annotated, Form.Built] at h ⊢
    exact ⟨h.1.built, AnnotatedChain.built h.2⟩
  | .filter .., _, _, _, _, h | .apply .., _, _, _, _, h => by
    simp only [Form.Annotated, Form.Built] at h ⊢
    exact ⟨h.1.built, AnnotatedAll.built h.2⟩
  | .conditional .., _, _, _, _, h => by
    simp only [Form.Annotated, Form.Built] at h ⊢
    exact ⟨h.1.built, h.2.1.built, h.2.2.built⟩
  | .check .., _, _, _, _, h => by
    simp only [Form.Annotated, Form.Built] at h ⊢
    exact h.built

theorem FunctionItem.Good.built : {f : FunctionItem} → f.Good → f.Built FunctionItem.Good
  | .inline .., h => by
    simp only [FunctionItem.Good, FunctionItem.Built] at h ⊢
    obtain ⟨hsignature, ⟨_, hbody⟩, -⟩ := h
    exact ⟨hsignature, hbody.built⟩
  | .coerced .., h => by simpa only [FunctionItem.Built] using h

theorem AnnotatedAll.built : {es : List Expr} → {Γ : List Variable} → {K : Knowledge} →
    AnnotatedAll Γ K es →
    BuiltAll FunctionItem.Good es
  | [], _, _, _ => trivial
  | _ :: _, _, _, h => by
    simp only [AnnotatedAll, BuiltAll] at h ⊢
    exact ⟨h.1.built, AnnotatedAll.built h.2⟩

theorem AnnotatedChain.built : {es : List Expr} → {Γ : List Variable} → {K : Knowledge} →
    AnnotatedChain Γ K es →
    BuiltAll FunctionItem.Good es
  | [], _, _, _ => trivial
  | _ :: _, _, _, h => by
    simp only [AnnotatedChain, BuiltAll] at h ⊢
    exact ⟨h.1.built, AnnotatedChain.built h.2⟩

end

theorem Expr.Built.at? {allowed : FunctionItem → Prop} {e : Expr} {l : Option Location}
    (h : e.Built allowed) : (e.at? l).Built allowed := by
  obtain ⟨form, τ, _⟩ := e
  simpa only [Expr.at?, Expr.Built] using h

section ReplaceContext

variable {allowed : FunctionItem → Prop} {value : Expr}

mutual

theorem Expr.Built.replaceContext (hvalue : value.Built allowed) : {e : Expr} → e.Built allowed →
    (e.replaceContext value).Built allowed
  | ⟨form, τ, l⟩, he => by
    rw [Expr.Built] at he
    by_cases hform : form = .contextItem
    · subst hform
      rw [Expr.replaceContext]
      exact hvalue.at?
    · rw [Expr.replaceContext, Expr.Built]
      · exact Form.Built.replaceContext hvalue he
      · exact hform

theorem Form.Built.replaceContext (hvalue : value.Built allowed) :
    {form : Form} → {τ : StaticType} →
    form.Built allowed τ → (form.replaceContext value).Built allowed τ
  | .literal _, _, h | .function _, _, h | .contextItem, _, h | .position _, _, h | .step .., _,
    h | .relativePath _, _, h
  | .reference _, _, h | .failure _, _, h | .map [], _, h => by
    simpa only [Form.replaceContext] using h
  | .conjunction _, _, h | .disjunction _, _, h | .call .., _, h => by
    simp only [Form.replaceContext, Form.Built] at h ⊢
    exact BuiltAll.replaceContext hvalue h
  | .comparison .., _, h | .containsText .., _, h => by
    simp only [Form.replaceContext, Form.Built] at h ⊢
    exact ⟨Expr.Built.replaceContext hvalue h.1, Expr.Built.replaceContext hvalue h.2⟩
  | .path .., _, h | .filter .., _, h => by
    simp only [Form.replaceContext, Form.Built] at h ⊢
    exact ⟨Expr.Built.replaceContext hvalue h.1, h.2⟩
  | .map (_ :: _), _, h => by
    simp only [Form.replaceContext, Form.Built, BuiltAll] at h ⊢
    exact ⟨Expr.Built.replaceContext hvalue h.1, h.2⟩
  | .conditional .., _, h => by
    simp only [Form.replaceContext, Form.Built] at h ⊢
    exact ⟨Expr.Built.replaceContext hvalue h.1, Expr.Built.replaceContext hvalue h.2.1,
      Expr.Built.replaceContext hvalue h.2.2⟩
  | .apply .., _, h => by
    simp only [Form.replaceContext, Form.Built] at h ⊢
    exact ⟨Expr.Built.replaceContext hvalue h.1, BuiltAll.replaceContext hvalue h.2⟩
  | .check .., _, h => by
    simp only [Form.replaceContext, Form.Built] at h ⊢
    exact Expr.Built.replaceContext hvalue h

theorem BuiltAll.replaceContext (hvalue : value.Built allowed) :
    {es : List Expr} → BuiltAll allowed es →
    BuiltAll allowed (replaceContextAll value es)
  | [], _ => trivial
  | _ :: _, h => by
    simp only [replaceContextAll, BuiltAll] at h ⊢
    exact ⟨Expr.Built.replaceContext hvalue h.1, BuiltAll.replaceContext hvalue h.2⟩

end

end ReplaceContext

end TreeQuery
