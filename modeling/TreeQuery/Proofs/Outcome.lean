import TreeQuery.Logged
/-!
# Outcomes of computations with a log

When a computation has an answer, part by part: `Logged.Gives x a` says that `x` answers `a`,
whatever it logs, and `Logged.Fails x f` that it fails with `f`. Two computations can be compared by
this: `Logged.Matches Q R x y` says that both fail, with failures in the relation `Q`, or that both
answer, with answers in the relation `R`.
-/

namespace TreeQuery

namespace Logged

variable {ω α β : Type}

def Gives (x : Logged ω α) (a : α) : Prop := x.outcome = .ok a

theorem Gives.unique {x : Logged ω α} {a b : α} (ha : x.Gives a) (hb : x.Gives b) : a = b :=
  Except.ok.inj (ha.symm.trans hb)

theorem gives_iff_toOption {x : Logged ω α} {a : α} : x.Gives a ↔ x.outcome.toOption = some a := by
  rw [Gives]
  cases x.outcome <;> simp [Except.toOption]

@[simp] theorem gives_pure {a b : α} : (pure a : Logged ω α).Gives b ↔ a = b := by
  simp [Gives, pure, Logged.pure]

@[simp] theorem gives_fail {e : Failure} {a : α} : ¬ (fail e : Logged ω α).Gives a := by
  simp [Gives, fail]

@[simp] theorem gives_failWith {c : Cause} {a : α} : ¬ (failWith c : Logged ω α).Gives a :=
  gives_fail

@[simp] theorem gives_write {entry : ω} {u : Unit} : (write entry).Gives u := rfl

@[simp] theorem gives_bind {x : Logged ω α} {f : α → Logged ω β} {b : β} :
    (x >>= f).Gives b ↔ ∃ a, x.Gives a ∧ (f a).Gives b := by
  obtain ⟨log, e | a⟩ := x
  · simp [Gives, outcome_bind, Except.bind]
  · simp [Gives, outcome_bind, Except.bind]

@[simp] theorem gives_map {x : Logged ω α} {f : α → β} {b : β} :
    (f <$> x).Gives b ↔ ∃ a, x.Gives a ∧ f a = b := by
  rw [← bind_pure_comp, gives_bind]
  simp

@[simp] theorem gives_lift {x : Except Error α} {a : α} :
    (lift x : Logged ω α).Gives a ↔ x = .ok a := by
  cases x <;> simp [Gives, lift]

@[simp] theorem gives_ofOutcome {x : Except Failure α} {a : α} :
    (ofOutcome x : Logged ω α).Gives a ↔ x = .ok a := Iff.rfl

@[simp] theorem gives_locate {x : Logged ω α} {l : Option Location} {a : α} :
    (x.locate l).Gives a ↔ x.Gives a := by
  obtain ⟨log, e | a⟩ := x <;> simp [Gives, locate]

@[simp] theorem gives_prepend {x : Logged ω α} {log : List ω} {a : α} :
    (x.prepend log).Gives a ↔ x.Gives a :=
  Iff.rfl

theorem gives_ite {p : Prop} [Decidable p] {x y : Logged ω α} {a : α} :
    (if p then x else y).Gives a ↔ (p ∧ x.Gives a) ∨ (¬p ∧ y.Gives a) := by
  split <;> simp [*]

/-- A computation after a choice, which is written out in both branches. -/
theorem gives_ite_bind {p : Prop} [Decidable p] {x y : Logged ω α} {f : α → Logged ω β} {b : β} :
    (if p then x >>= f else y >>= f).Gives b ↔ ∃ a, (if p then x else y).Gives a ∧
    (f a).Gives b := by
  split <;> exact gives_bind

theorem bind_eq_of_gives {x : Logged ω α} {f g : α → Logged ω β} (h : ∀ a, x.Gives a → f a = g a) :
    x >>= f = x >>= g := by
  obtain ⟨log, e | a⟩ := x
  · rfl
  · show (f a).prepend log = (g a).prepend log
    rw [h a rfl]

theorem map_eq (f : α → β) (x : Logged ω α) : f <$> x = ⟨x.log, x.outcome.map f⟩ := by
  obtain ⟨log, e | a⟩ := x
  · rfl
  · show Logged.mk (log ++ []) _ = _
    rw [List.append_nil]
    rfl

/-- What comes after two computations that are the same up to `p`, if it looks at no more than
`p`. -/
theorem bind_eq_of_map_eq {γ : Type} {x y : Logged ω α} {p : α → γ} {f g : α → Logged ω β}
    (h : p <$> x = p <$> y) (hfg : ∀ a b, p a = p b → f a = g b) : x >>= f = y >>= g := by
  rw [map_eq, map_eq, mk.injEq] at h
  obtain ⟨log, x⟩ := x
  obtain ⟨log', y⟩ := y
  obtain ⟨rfl, h⟩ : log = log' ∧ x.map p = y.map p := h
  cases x with
  | error e =>
    cases y with
    | error e' => exact congrArg (fun e => (⟨log, .error e⟩ : Logged ω β)) (Except.error.inj h)
    | ok b => cases h
  | ok a =>
    cases y with
    | error e' => cases h
    | ok b =>
      show (f a).prepend log = (g b).prepend log
      rw [hfg a b (Except.ok.inj h)]

/-! ### Failures -/

def Fails (x : Logged ω α) (f : Failure) : Prop := x.outcome = .error f

theorem gives_or_fails (x : Logged ω α) : (∃ a, x.Gives a) ∨ ∃ f, x.Fails f := by
  obtain ⟨log, f | a⟩ := x
  · exact .inr ⟨f, rfl⟩
  · exact .inl ⟨a, rfl⟩

@[simp] theorem fails_pure {a : α} {f : Failure} : ¬(pure a : Logged ω α).Fails f := by
  simp [Fails, pure, Logged.pure]

@[simp] theorem fails_fail {e f : Failure} : (fail e : Logged ω α).Fails f ↔ e = f := by
  simp [Fails, fail]

@[simp] theorem fails_write {entry : ω} {f : Failure} : ¬(write entry).Fails f := by
  simp [Fails, write]

@[simp] theorem fails_bind {x : Logged ω α} {g : α → Logged ω β} {f : Failure} :
    (x >>= g).Fails f ↔ x.Fails f ∨ ∃ a, x.Gives a ∧ (g a).Fails f := by
  obtain ⟨log, e | a⟩ := x
  · simp [Fails, Gives, outcome_bind, Except.bind]
  · simp [Fails, Gives, outcome_bind, Except.bind]

@[simp] theorem fails_map {x : Logged ω α} {g : α → β} {f : Failure} :
    (g <$> x).Fails f ↔ x.Fails f := by
  rw [← bind_pure_comp, fails_bind]
  simp

@[simp] theorem fails_lift {x : Except Error α} {f : Failure} :
    (lift x : Logged ω α).Fails f ↔ ∃ e, x = .error e ∧ .error e = f := by
  cases x <;> simp [Fails, lift]

@[simp] theorem fails_ofOutcome {x : Except Failure α} {f : Failure} :
    (ofOutcome x : Logged ω α).Fails f ↔ x = .error f := Iff.rfl

theorem fails_ite {p : Prop} [Decidable p] {x y : Logged ω α} {f : Failure} :
    (if p then x else y).Fails f ↔ (p ∧ x.Fails f) ∨ (¬p ∧ y.Fails f) := by
  split <;> simp [*]

theorem fails_ite_bind {p : Prop} [Decidable p] {x y : Logged ω α} {g : α → Logged ω β}
    {f : Failure} : (if p then x >>= g else y >>= g).Fails f ↔
      (if p then x else y).Fails f ∨ ∃ a, (if p then x else y).Gives a ∧ (g a).Fails f := by
  split <;> exact fails_bind

/-! ### Two computations -/

/-- Both computations fail or both answer, with failures in relation `Q` and answers in relation
`R`. -/
inductive Matches (Q : Failure → Failure → Prop) (R : α → β → Prop) (x : Logged ω α)
    (y : Logged ω β) : Prop
  | fails {f g : Failure} (hx : x.Fails f) (hy : y.Fails g) (h : Q f g)
  | gives {a : α} {b : β} (hx : x.Gives a) (hy : y.Gives b) (h : R a b)

namespace Matches

variable {γ δ : Type} {Q : Failure → Failure → Prop} {R : α → β → Prop} {S : γ → δ → Prop}

theorem pure {a : α} {b : β} (h : R a b) :
    (Pure.pure a : Logged ω α).Matches Q R (Pure.pure b : Logged ω β) :=
  .gives rfl rfl h

theorem bind {x : Logged ω α} {y : Logged ω β} {f : α → Logged ω γ} {g : β → Logged ω δ}
    (h : x.Matches Q R y) (hfg : ∀ a b, R a b → (f a).Matches Q S (g b)) :
    (x >>= f).Matches Q S (y >>= g) := by
  cases h with
  | fails hx hy h => exact .fails (fails_bind.mpr (.inl hx)) (fails_bind.mpr (.inl hy)) h
  | @gives a b hx hy h =>
    cases hfg a b h with
    | fails hf hg h =>
      exact .fails (fails_bind.mpr (.inr ⟨a, hx, hf⟩)) (fails_bind.mpr (.inr ⟨b, hy, hg⟩)) h
    | gives hf hg h => exact .gives (gives_bind.mpr ⟨a, hx, hf⟩) (gives_bind.mpr ⟨b, hy, hg⟩) h

theorem of_outcome_eq {x y : Logged ω α} (hQ : ∀ f, Q f f) (h : x.outcome = y.outcome) :
    x.Matches Q Eq y := by
  obtain ⟨a, ha⟩ | ⟨f, hf⟩ := x.gives_or_fails
  · exact .gives ha (h.symm.trans ha) rfl
  · exact .fails hf (h.symm.trans hf) (hQ f)

theorem iff_outcome_eq {x y : Logged ω α} : x.Matches Eq Eq y ↔ x.outcome = y.outcome := by
  refine ⟨fun h => ?_, of_outcome_eq fun _ => rfl⟩
  cases h with
  | fails hx hy h => exact hx.trans (h ▸ hy.symm)
  | gives hx hy h => exact hx.trans (h ▸ hy.symm)

end Matches

end Logged

theorem map_eq_ok {ε α β : Type} {x : Except ε α} {f : α → β} {b : β} :
    x.map f = .ok b ↔ ∃ a, x = .ok a ∧ f a = b := by
  cases x <;> simp [Except.map]

end TreeQuery
