/-!
# Computations that compare

A sort sees its elements through comparisons alone, so it is modelled by the questions it asks:
which two elements it compares, and how it goes on with each answer. What answers is then a
choice of its own, and may be no order at all.
-/

namespace TreeQuery

/-- A computation on elements that it may compare: it is done, it asks how two of them compare and
goes on with the answer, or it gives up. -/
inductive Comparing (α β : Type) where
  | done (out : β)
  | ask (a b : α) (next : Ordering → Comparing α β)
  | giveUp

namespace Comparing

variable {α β γ : Type}

protected def bind (x : Comparing α β) (f : β → Comparing α γ) : Comparing α γ :=
  match x with
  | done out => f out
  | ask a b next => ask a b fun o => (next o).bind f
  | giveUp => giveUp

instance : Monad (Comparing α) where
  pure := done
  bind := Comparing.bind

def less (a b : α) : Comparing α Bool := ask a b fun o => done (o == .lt)

def notLess (a b : α) : Comparing α Bool := ask a b fun o => done (o != .lt)

/-- What the computation comes to if an order answers that may fail, `none` if it gives up. The
computation is not told of a failure, which counts as equality; the first one is kept. -/
def collect {ε : Type} (order : α → α → Except ε Ordering) (failure : Option ε) :
    Comparing α β → Option (Option ε × β)
  | done out => some (failure, out)
  | ask a b next =>
    match order a b with
    | .ok o => (next o).collect order failure
    | .error e => (next .eq).collect order (failure.or (some e))
  | giveUp => none

end Comparing
end TreeQuery
