import Mathlib.Data.List.Perm.Basic
import TreeQuery.Sorting.Comparing
/-!
# What comparing computations come to

`x.Gives cmp u Q`: with the answers of `cmp` the computation does not give up, its result has the
property `Q`, and it asks for elements of `u` only. An order that may fail answers like `cmp` as
long as it does not fail, so a run without a failure has the properties that all such `cmp` give
(`Gives.of_collect`), and where the order never fails there is such a run (`Gives.collect_eq`).
-/

namespace TreeQuery
namespace Comparing

variable {α β γ : Type}

def Gives (cmp : α → α → Ordering) (u : α → Prop) (Q : β → Prop) : Comparing α β → Prop
  | done out => Q out
  | ask a b next => u a ∧ u b ∧ (next (cmp a b)).Gives cmp u Q
  | giveUp => False

def Steady : Comparing α β → Prop
  | done _ => True
  | ask _ _ next => ∀ o, (next o).Steady
  | giveUp => False

section Collect

variable {ε : Type} {order : α → α → Except ε Ordering} {failure : Option ε} {a b : α}
  {next : Ordering → Comparing α β}

theorem collect_ok {o : Ordering} (h : order a b = .ok o) :
    (ask a b next).collect order failure = (next o).collect order failure := by
  rw [collect, h]

theorem collect_error {e : ε} (h : order a b = .error e) :
    (ask a b next).collect order failure = (next .eq).collect order (failure.or (some e)) := by
  rw [collect, h]

end Collect

variable {cmp : α → α → Ordering} {u : α → Prop} {P : β → Prop} {Q : γ → Prop} {a b : α}

namespace Gives

theorem pure {out : β} (h : P out) : (Pure.pure out : Comparing α β).Gives cmp u P := h

theorem bind {x : Comparing α β} {f : β → Comparing α γ} (hx : x.Gives cmp u P)
    (hf : ∀ out, P out → (f out).Gives cmp u Q) : (x >>= f).Gives cmp u Q := by
  induction x with
  | done out => exact hf out hx
  | ask a b next ih => exact ⟨hx.1, hx.2.1, ih _ hx.2.2⟩
  | giveUp => exact hx

theorem imp {x : Comparing α β} {P' : β → Prop} (hx : x.Gives cmp u P)
    (h : ∀ out, P out → P' out) : x.Gives cmp u P' := by
  induction x with
  | done out => exact h out hx
  | ask a b next ih => exact ⟨hx.1, hx.2.1, ih _ hx.2.2⟩
  | giveUp => exact hx

theorem less (ha : u a) (hb : u b) : (less a b).Gives cmp u fun c => c = true ↔ cmp a b = .lt :=
  ⟨ha, hb, beq_iff_eq⟩

theorem notLess (ha : u a) (hb : u b) :
    (notLess a b).Gives cmp u fun c => c = true ↔ cmp a b ≠ .lt :=
  ⟨ha, hb, bne_iff_ne⟩

theorem branch {x : Comparing α Bool} {y z : Comparing α β} {p : Prop}
    (hx : x.Gives cmp u fun c => c = true ↔ p) (hy : p → y.Gives cmp u P)
    (hz : ¬p → z.Gives cmp u P) : (x >>= fun c => if c = true then y else z).Gives cmp u P := by
  refine hx.bind fun c hc => ?_
  split
  · next h => exact hy (hc.mp h)
  · next h => exact hz fun hp => h (hc.mpr hp)

section Orders

variable {ε : Type} {order : α → α → Except ε Ordering} {x : Comparing α β}

theorem collect_eq (horder : ∀ a b, u a → u b → order a b = .ok (cmp a b)) (failure : Option ε)
    (h : x.Gives cmp u P) : ∃ out, x.collect order failure = some (failure, out) ∧ P out := by
  induction x with
  | done out => exact ⟨out, rfl, h⟩
  | ask a b next ih =>
    obtain ⟨ha, hb, h⟩ := h
    rw [collect_ok (horder a b ha hb)]
    exact ih _ h
  | giveUp => exact h.elim

theorem collect_some (order : α → α → Except ε Ordering) (e : ε) (x : Comparing α β) :
    x.collect order (some e) = none ∨ ∃ out, x.collect order (some e) = some (some e, out) := by
  induction x with
  | done out => exact .inr ⟨out, rfl⟩
  | ask a b next ih =>
    cases ho : order a b with
    | ok o => rw [collect_ok ho]; exact ih o
    | error e' => rw [collect_error ho]; exact ih .eq
  | giveUp => exact .inl rfl

theorem of_collect (horder : ∀ a b o, order a b = .ok o → cmp a b = o) {out : β}
    (hout : x.collect order none = some (none, out)) (h : x.Gives cmp u P) : P out := by
  induction x with
  | done out' =>
    obtain rfl := congrArg Prod.snd (Option.some.inj hout)
    exact h
  | ask a b next ih =>
    cases ho : order a b with
    | ok o =>
      rw [collect_ok ho] at hout
      obtain rfl := horder a b o ho
      exact ih _ hout h.2.2
    | error e =>
      rw [collect_error ho, Option.none_or] at hout
      obtain hnone | ⟨out', hsome⟩ := collect_some order e (next .eq)
      · rw [hnone] at hout
        cases hout
      · rw [hsome] at hout
        cases hout
  | giveUp => exact h.elim

theorem failure_of_collect {failure : Option ε} {e : ε} {out : β}
    (hout : x.collect order failure = some (some e, out)) :
    failure = some e ∨ ∃ a b, order a b = .error e := by
  induction x generalizing failure with
  | done out' => exact .inl (congrArg Prod.fst (Option.some.inj hout))
  | ask a b next ih =>
    cases ho : order a b with
    | ok o =>
      rw [collect_ok ho] at hout
      exact ih _ hout
    | error e' =>
      rw [collect_error ho] at hout
      rcases ih _ hout with hfailure | herror
      · cases failure with
        | none =>
          obtain rfl := Option.some.inj hfailure
          exact .inr ⟨a, b, ho⟩
        | some e'' => exact .inl hfailure
      · exact .inr herror
  | giveUp => cases hout

end Orders
end Gives

namespace Steady

theorem bind {x : Comparing α β} {f : β → Comparing α γ} (hx : x.Steady)
    (hf : ∀ out, (f out).Steady) : (x >>= f).Steady := by
  induction x with
  | done out => exact hf out
  | ask a b next ih => exact fun o => ih o (hx o)
  | giveUp => exact hx

theorem less (a b : α) : (less a b).Steady := fun _ => trivial

theorem collect_ne_none {ε : Type} {order : α → α → Except ε Ordering} {x : Comparing α β}
    (hx : x.Steady) (failure : Option ε) : x.collect order failure ≠ none := by
  induction x generalizing failure with
  | done out => exact Option.some_ne_none _
  | ask a b next ih =>
    cases ho : order a b with
    | ok o => rw [collect_ok ho]; exact ih o (hx o) failure
    | error e => rw [collect_error ho]; exact ih .eq (hx .eq) _
  | giveUp => exact hx.elim

end Steady
end Comparing
end TreeQuery
