import TreeQuery.Eval.Expression
import TreeQuery.Proofs.Outcome
/-!
# Sequences of a static type

`StaticType.Describes` is what a static type promises of a sequence: the type of its items, an
indicator that its length satisfies, and its length where that is known. `Expr.SoundAt` says that
the static type of an expression keeps that promise for the value in an environment.
-/

namespace TreeQuery

/-- The sequence is as the static type says. -/
structure StaticType.Describes (forest : Forest) (t : StaticType) (items : List Item) : Prop where
  item : ∀ item ∈ items, item.isInstance forest t.item = true
  occurrence : t.occurrence.admits items.length = true
  size : ∀ n, t.size = some n → items.length = n

/-- The value of an expression as its cursor gives it. -/
def Expr.drained (call : Caller) (env : Env) (e : Expr) : Run (List Item) := do
  let cursor ← e.iterate call env
  cursor.drain env.scoring

/-- If evaluation ends with a value, the static type describes it. -/
def Expr.SoundAt (call : Caller) (env : Env) (e : Expr) : Prop :=
  ∀ items, (e.drained call env).Gives items → e.type.Describes env.forest items

theorem AtomicType.mayBeNumber_of_instanceOf {a b : AtomicType} (h : a.instanceOf b = true)
    (ha : a.isNumeric = true) : (b == .anyAtomic || b.isNumeric) = true := by
  revert h ha
  cases a <;> cases b <;> decide

theorem ItemType.mayBeNumber_of_admits {t : ItemType} {v : Atomic} (h : t.admits v = true)
    (hv : v.number?.isSome) : t.mayBeNumber = true := by
  have numeric : v.type.isNumeric = true := by
    cases v <;> first | rfl | simp [Atomic.number?] at hv
  cases t with
  | any => rfl
  | atomic u => exact AtomicType.mayBeNumber_of_instanceOf h numeric
  | node | kind _ | function | functionOf _ => simp [admits, admitsAtomic] at h

namespace StaticType.Describes

variable {forest : Forest} {t : StaticType}

theorem boolean (b : Bool) : StaticType.boolean.Describes forest [.atomic (.boolean b)] where
  item := by simp [StaticType.boolean, StaticType.of, Item.isInstance, ItemType.admits,
    ItemType.admitsAtomic, Atomic.type, AtomicType.instanceOf]
  occurrence := rfl
  size n h := by simpa [StaticType.boolean, StaticType.of] using h

theorem mayBeNumber {v : Atomic} (h : t.Describes forest [.atomic v]) (hv : v.number?.isSome) :
    t.mayBeNumber = true := by
  have nonempty : t.occurrence ≠ .zero :=
    fun h0 => absurd h.occurrence (by simp [h0, Occurrence.admits, Occurrence.max])
  simp only [StaticType.mayBeNumber, Bool.and_eq_true, bne_iff_ne]
  exact ⟨nonempty, ItemType.mayBeNumber_of_admits (h.item _ (List.mem_singleton_self _)) hv⟩

end StaticType.Describes
end TreeQuery
