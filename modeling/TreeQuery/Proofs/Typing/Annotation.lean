import TreeQuery.Proofs.Compile.Cases
import TreeQuery.Proofs.Typing.Focus
/-!
# Annotated expressions

The annotations of constants, and what the two ways of putting one expression in the place of
another do to annotations: a place does not matter for them, and a deferred failure may carry any
static type.
-/

namespace TreeQuery

variable {Γ : List Variable} {K : Knowledge}

namespace Expr

theorem Annotated.infers {e : Expr} (h : e.Annotated Γ K) : e.Infers K e.type := by
  obtain ⟨form, τ, l⟩ := e
  rw [Annotated] at h
  exact h.1

theorem Annotated.offers {e : Expr} (h : e.Annotated Γ K) : e.Offers K e.type.item :=
  ⟨e.type, h.infers, rfl⟩

@[simp] theorem annotated_at? {e : Expr} {l : Option Location} :
    (e.at? l).Annotated Γ K ↔ e.Annotated Γ K := by
  obtain ⟨form, τ, l'⟩ := e
  simp only [at?, Annotated]

@[simp] theorem infers_at? {e : Expr} {l : Option Location} {τ : StaticType} :
    (e.at? l).Infers K τ ↔ e.Infers K τ := by
  obtain ⟨form, τ, l'⟩ := e
  simp only [at?, Infers]

@[simp] theorem at?_type {e : Expr} {l : Option Location} : (e.at? l).type = e.type := rfl

@[simp] theorem meets_at? {e : Expr} {l : Option Location} {s : SeqType} :
    (e.at? l).Meets s ↔ e.Meets s := by
  obtain ⟨form, τ, l'⟩ := e
  cases form <;> simp only [at?, Meets]

/-! ### Constants -/

theorem one_le_noEnd : 1 ≤ noEnd := by decide

theorem annotated_literal {values : List Atomic} (h : values.length ≤ noEnd) :
    (literal values).Annotated Γ K := by
  simp only [literal, of, Form.type, Annotated, Form.Annotated, Form.Infers]
  exact ⟨⟨h, .inl rfl⟩, trivial⟩

@[simp] theorem annotated_empty : empty.Annotated Γ K := annotated_literal (Nat.zero_le _)

@[simp] theorem annotated_ofBool {b : Bool} : (ofBool b).Annotated Γ K :=
  annotated_literal one_le_noEnd

@[simp] theorem annotated_ofInt {i : Int} : (ofInt i).Annotated Γ K :=
  annotated_literal one_le_noEnd

theorem offers_empty {t : ItemType} {l : Option Location} : (empty.at? l).Offers K t := by
  refine ⟨.of t .zero, ?_, rfl⟩
  simp only [infers_at?, empty, literal, of, Infers, Form.Infers]
  exact ⟨Nat.zero_le _, .inr ⟨rfl, t, rfl⟩⟩

@[simp] theorem annotated_ofPositionTest {test : PositionTest} :
    (ofPositionTest test).Annotated Γ K := by
  cases test with
  | within w =>
    simp only [ofPositionTest, of, Form.type, Annotated, Form.Annotated, Form.Infers]
    exact ⟨trivial, trivial⟩
  | never => exact annotated_ofBool

theorem annotated_failure {error : Error} {τ : StaticType} {l : Option Location} :
    (⟨.failure error, τ, l⟩ : Expr).Annotated Γ K := by
  simp only [Annotated, Form.Annotated, Form.Infers, and_self]

theorem annotated_contextItem : contextItem.Annotated Γ K := by
  simp only [contextItem, of, Form.type, Annotated, Form.Annotated, Form.Infers]
  exact ⟨.inl trivial, trivial⟩

end Expr

/-! ### Compilations -/

theorem replace_annotated {old new e : Expr} (h : (replace old new).Gives e)
    (hnew : new.Annotated Γ K) : e.Annotated Γ K := by
  obtain rfl := replace_gives.mp h
  exact Expr.annotated_at?.mpr hnew

theorem defer_annotated {error : Error} {old e : Expr} (h : (defer error old).Gives e) :
    e.Annotated Γ K := by
  simp only [defer, Logged.gives_bind, gives_remark, Logged.gives_pure] at h
  obtain ⟨-, -, rfl⟩ := h
  exact Expr.annotated_failure

theorem deferring_annotated {old e : Expr} {x : Compile Expr} (h : (deferring old x).Gives e)
    (hx : x.Gives e → e.Annotated Γ K) : e.Annotated Γ K := by
  unfold deferring at h
  split at h
  · exact defer_annotated (Logged.gives_prepend.mp h)
  · exact hx h

end TreeQuery
