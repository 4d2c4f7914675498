import TreeQuery.Eval.Operation
import TreeQuery.Proofs.Sorting.Answers
import TreeQuery.Compile.Scope
/-!
# Errors of operations on values

That a variable has no value is found out in one place, where the variable is looked up, and in
others that there is no focus or that its size is not known. Casts, comparisons, coercions, the
order of nodes and the truth of constants fail for other reasons (`Error.Ordinary`), and a place
that is added to an error does not change its reason. Compilation can find out that there is no
focus, besides (`Error.Static`).
-/

namespace TreeQuery

/-- Causes that operations on values have: it is not that a variable has no value, that there is no
focus or that its size is not known, and the error is not raised by its name. -/
def Cause.Ordinary : Cause → Prop
  | .unbound _ | .contextAbsent | .sizeUnknown | .raised .. => False
  | _ => True

def Error.Ordinary (e : Error) : Prop := e.cause.Ordinary

/-- The reason is one that compilation finds: one that operations on values have, or that there is
no focus. -/
def Error.Static (e : Error) : Prop := e.Ordinary ∨ e.cause = .contextAbsent

def Error.NotUnbound (e : Error) : Prop := ∀ v, e.cause ≠ .unbound v

def Raises {α : Type} (E : Error → Prop) (x : Except Error α) : Prop := ∀ e, x = .error e → E e

section Raises

variable {α β : Type} {E : Error → Prop}

theorem raises_ok {a : α} : Raises E (.ok a : Except Error α) := fun _ h => nomatch h

theorem raises_error {e : Error} (h : E e) : Raises E (.error e : Except Error α) :=
  fun _ he => Except.error.inj he ▸ h

theorem Raises.map {x : Except Error α} (h : Raises E x) (f : α → β) : Raises E (x.map f) := by
  cases x with
  | ok a => exact raises_ok
  | error e => exact raises_error (h e rfl)

theorem Raises.bind {x : Except Error α} {f : α → Except Error β} (h : Raises E x)
    (hf : ∀ a, Raises E (f a)) : Raises E (x >>= f) := by
  cases x with
  | ok a => exact hf a
  | error e => exact raises_error (h e rfl)

theorem Raises.mapM {f : α → Except Error β} (hf : ∀ a, Raises E (f a)) (as : List α) :
    Raises E (as.mapM f) := by
  induction as with
  | nil => exact raises_ok
  | cons a as ih =>
    rw [List.mapM_cons]
    exact (hf a).bind fun b => ih.bind fun bs => raises_ok

end Raises

namespace Error

theorem NotUnbound.locate {e : Error} (h : e.NotUnbound) (l : Option Location) :
    (e.locate l).NotUnbound := h

theorem Ordinary.locate {e : Error} (h : e.Ordinary) (l : Option Location) :
    (e.locate l).Ordinary := h

theorem Ordinary.notUnbound {e : Error} (h : e.Ordinary) : e.NotUnbound := by
  intro v hv
  rw [Ordinary, hv] at h
  exact h

theorem Ordinary.static {e : Error} (h : e.Ordinary) : e.Static := .inl h

theorem static_contextAbsent : (Error.of .contextAbsent).Static := .inr rfl

theorem Static.locate {e : Error} (h : e.Static) (l : Option Location) : (e.locate l).Static := h

theorem Static.notUnbound {e : Error} (h : e.Static) : e.NotUnbound := by
  rcases h with h | h
  · exact h.notUnbound
  · intro v hv
    exact Cause.noConfusion (h.symm.trans hv)

theorem ordinary_dynamicMismatch {found : String} {target : SeqType} {l : Option Location} :
    (dynamicMismatch found target l).Ordinary := trivial

theorem ordinary_staticMismatch {found : String} {target : SeqType} {l : Option Location} :
    (staticMismatch found target l).Ordinary := trivial

end Error

/-! ### Operations on values -/

theorem castText_ordinary (s : String) (t : AtomicType) : Raises Error.Ordinary (castText s t) := by
  have invalid : Raises Error.Ordinary (.error (.of (.invalidForm s t)) : Except Error Atomic) :=
    raises_error trivial
  unfold castText
  dsimp only
  split
  all_goals first | exact raises_ok | split
  all_goals first | exact raises_ok | exact invalid

theorem Atomic.promote_ordinary (v : Atomic) (t : AtomicType) :
    Raises Error.Ordinary (v.promote t) := by
  unfold Atomic.promote
  split
  · exact (castText_ordinary _ _).map some
  all_goals exact raises_ok

theorem Atomic.compare_ordinary (op : CompareOp) (a b : Atomic) :
    Raises Error.Ordinary (Atomic.compare op a b) := by
  unfold Atomic.compare
  split
  · exact raises_ok
  · split
    · split
      · exact raises_ok
      · exact raises_ok
      · exact raises_error trivial
    · split
      · exact raises_ok
      · exact raises_error trivial

theorem Atomic.alignPair_ordinary (a b : Atomic) :
    Raises Error.Ordinary (Atomic.alignPair a b) := by
  unfold Atomic.alignPair
  split
  · exact raises_ok
  · exact (castText_ordinary _ _).map _
  · exact (castText_ordinary _ _).map _
  · exact raises_ok

theorem anyTest_ordinary {α : Type} {test : α → Except Error Bool}
    (h : ∀ a, Raises Error.Ordinary (test a)) (as : List α) :
    Raises Error.Ordinary (anyTest test as) := by
  induction as with
  | nil => exact raises_ok
  | cons a as ih =>
    rw [anyTest]
    refine (h a).bind fun b => ?_
    cases b with
    | true => exact raises_ok
    | false => exact ih

theorem compareGeneral_ordinary (op : CompareOp) (left right : List Atomic) :
    Raises Error.Ordinary (compareGeneral op left right) := by
  refine anyTest_ordinary (fun a => anyTest_ordinary (fun b => ?_) right) left
  exact (Atomic.alignPair_ordinary a b).bind fun _ => Atomic.compare_ordinary _ _ _

theorem compareAtomics_ordinary (style : CompareStyle) (op : CompareOp) (left right : List Atomic) :
    Raises Error.Ordinary (compareAtomics style op left right) := by
  unfold compareAtomics
  split
  · exact (compareGeneral_ordinary op left right).map _
  · split
    · exact raises_ok
    · exact raises_ok
    · exact (Atomic.compare_ordinary _ _ _).map _
    · exact raises_error trivial

theorem Item.atomize_ordinary (forest : Forest) (item : Item) :
    Raises Error.Ordinary (item.atomize forest) := by
  cases item with
  | node n => exact raises_ok
  | atomic v => exact raises_ok
  | function f => exact raises_error trivial

theorem atomizeAll_ordinary (forest : Forest) (items : List Item) :
    Raises Error.Ordinary (atomizeAll forest items) :=
  Raises.mapM (Item.atomize_ordinary forest) items

/-- Document order fails for a reason that operations on values have, or the run is aborted. -/
theorem documentOrder_fails {forest : Forest} {items : List Item} {f : Failure}
    (h : documentOrder forest items = .error f) :
    f = .aborted ∨ ∃ e : Error, f = .error e ∧ e.Ordinary := by
  have order {a b : NodeId} {e : Error} (he : forest.compareOrder a b = .error e) : e.Ordinary := by
    unfold Forest.compareOrder at he
    split at he
    · split at he
      · cases he
      · exact Except.error.inj he ▸ trivial
    · cases he
  unfold documentOrder at h
  dsimp only at h
  split at h
  · cases h
  split at h
  · exact .inr ⟨_, (Except.error.inj h).symm, trivial⟩
  unfold Forest.sortNodes sortDistinct at h
  split at h
  · cases h
  · next e out hcollect =>
    obtain hnone | ⟨a, b, he⟩ := Comparing.Gives.failure_of_collect hcollect
    · cases hnone
    · exact .inr ⟨e, (Except.error.inj h).symm, order he⟩
  · exact .inl (Except.error.inj h).symm

theorem FunctionItem.coerce_ordinary (f : FunctionItem) (s : Signature) :
    Raises Error.Ordinary (f.coerce s) := by
  unfold FunctionItem.coerce
  split
  · exact raises_error trivial
  · split <;> exact raises_ok

/-! ### Constants -/

theorem Expr.constantTruth_ordinary (e : Expr) : Raises Error.Ordinary e.constantTruth := by
  unfold Expr.constantTruth
  split
  · exact raises_ok
  · exact raises_ok
  all_goals exact raises_error trivial

end TreeQuery
