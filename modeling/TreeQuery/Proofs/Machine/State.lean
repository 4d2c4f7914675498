import TreeQuery.Eval.Operation
import TreeQuery.Proofs.Outcome
/-!
# A machine with shared state

The cursors of one evaluation can share a single focus, function frame and scoring flag, which a
computation replaces for a while and puts back on every way out. A `Machine` is such a computation
on one `Env`; `m.Follows s R x` says that from `s` it leaves the state as it was and ends like `x`,
which computes in an environment of its own, the answers being related by `R`.
-/

namespace TreeQuery

/-- A computation that starts in a state and leaves one, also if it fails. -/
def Machine (α : Type) : Type := Env → Run α × Env

namespace Machine

variable {α β γ δ : Type}

protected def pure (a : α) : Machine α := fun s => (pure a, s)

protected def bind (x : Machine α) (f : α → Machine β) : Machine β := fun s =>
  match x s with
  | (⟨log, .ok a⟩, s) => ((f a s).1.prepend log, (f a s).2)
  | (⟨log, .error e⟩, s) => (⟨log, .error e⟩, s)

instance : Monad Machine where
  pure := Machine.pure
  bind := Machine.bind

theorem bind_ok {x : Machine α} {f : α → Machine β} {s s' : Env} {log : List Trace} {a : α}
    (h : x s = (⟨log, .ok a⟩, s')) : (x >>= f) s = ((f a s').1.prepend log, (f a s').2) := by
  show Machine.bind x f s = _
  rw [Machine.bind, h]

theorem bind_error {x : Machine α} {f : α → Machine β} {s s' : Env} {log : List Trace} {e : Failure}
    (h : x s = (⟨log, .error e⟩, s')) : (x >>= f) s = (⟨log, .error e⟩, s') := by
  show Machine.bind x f s = _
  rw [Machine.bind, h]

def look (f : Env → Run α) : Machine α := fun s => (f s, s)

def read (f : Env → α) : Machine α := fun s => (pure (f s), s)

def locate (x : Machine α) (l : Option Location) : Machine α := fun s => ((x s).1.locate l, (x s).2)

/-- Runs with another focus; puts back the old one, whether `x` fails or not. -/
def withFocus (focus : Focus) (x : Machine α) : Machine α := fun s =>
  ((x (s.withFocus focus)).1, (x (s.withFocus focus)).2.withFocus s.focus)

def withLocals (locals : Bindings) (x : Machine α) : Machine α := fun s =>
  ((x { s with locals }).1, { (x { s with locals }).2 with locals := s.locals })

/-- Whether outcomes are the same failure or answers that are related. -/
def Agree (R : α → β → Prop) : Except Failure α → Except Failure β → Prop
  | .ok a, .ok b => R a b
  | .error e, .error f => e = f
  | _, _ => False

theorem Agree.cases {R : α → β → Prop} {o : Except Failure α} {o' : Except Failure β}
    (h : Agree R o o') : (∃ e, o = .error e ∧ o' = .error e) ∨
    ∃ a b, o = .ok a ∧ o' = .ok b ∧ R a b := by
  rcases o with e | a <;> rcases o' with e' | b
  · exact .inl ⟨e, rfl, congrArg Except.error (Eq.symm h)⟩
  · exact h.elim
  · exact h.elim
  · exact .inr ⟨a, b, rfl, rfl, h⟩

/-- From state `s` the computation leaves the state as it was, logs what `x` does and ends as `x`
does. -/
structure Follows (s : Env) (R : α → β → Prop) (m : Machine α) (x : Run β) : Prop where
  state : (m s).2 = s
  log : (m s).1.log = x.log
  outcome : Agree R (m s).1.outcome x.outcome

namespace Follows

variable {s : Env} {R : α → β → Prop} {S : γ → δ → Prop} {m : Machine α} {x : Run β}

theorem pure {a : α} {b : β} (h : R a b) : Follows s R (pure a) (pure b) := ⟨rfl, rfl, h⟩

theorem fail (e : Failure) : Follows s R (look fun _ => Logged.fail e) (Logged.fail e) :=
  ⟨rfl, rfl, rfl⟩

theorem of_eq {x : Run α} (h : m s = (x, s)) : Follows s Eq m x := by
  refine ⟨by rw [h], by rw [h], ?_⟩
  rw [h]
  cases x.outcome <;> rfl

theorem look (f : Env → Run α) : Follows s Eq (Machine.look f) (f s) := of_eq rfl

theorem bind {f : α → Machine γ} {g : β → Run δ} (h : Follows s R m x)
    (hf : ∀ a b, R a b → Follows s S (f a) (g b)) : Follows s S (m >>= f) (x >>= g) := by
  obtain ⟨hstate, hlog, houtcome⟩ := h
  obtain ⟨log, o⟩ := x
  rcases hm : m s with ⟨⟨log', o'⟩, s'⟩
  rw [hm] at hstate hlog houtcome
  obtain rfl : s' = s := hstate
  obtain rfl : log' = log := hlog
  obtain ⟨e, rfl, rfl⟩ | ⟨a, b, rfl, rfl, hab⟩ := Agree.cases houtcome
  · have hbind := bind_error (f := f) hm
    exact ⟨by rw [hbind], by rw [hbind]; rfl, by rw [hbind]; rfl⟩
  · have hbind := bind_ok (f := f) hm
    obtain ⟨hstate, hlog, houtcome⟩ := hf a b hab
    refine ⟨by rw [hbind]; exact hstate, ?_, by rw [hbind]; exact houtcome⟩
    rw [hbind]
    show log' ++ (f a s').1.log = log' ++ (g b).log
    rw [hlog]

theorem read_bind {f : Env → γ} {g : γ → Machine α} (h : Follows s R (g (f s)) x) :
    Follows s R (read f >>= g) x := by
  have hbind : (read f >>= g) s = ((g (f s) s).1.prepend [], (g (f s) s).2) := bind_ok rfl
  refine ⟨by rw [hbind]; exact h.state, by rw [hbind]; exact h.log, by rw [hbind]; exact h.outcome⟩

theorem seq {x : Run α} {f : α → Machine γ} {g : α → Run δ} (h : Follows s Eq m x)
    (hf : ∀ a, Follows s S (f a) (g a)) : Follows s S (m >>= f) (x >>= g) :=
    h.bind fun a _ hab => hab ▸ hf a

theorem seqMap {x : Run α} {f : α → γ} {g : α → δ} (h : Follows s Eq m x)
    (hf : ∀ a, S (f a) (g a)) : Follows s S (f <$> m) (g <$> x) := h.seq fun a => .pure (hf a)

theorem locate (l : Option Location) (h : Follows s R m x) :
    Follows s R (m.locate l) (x.locate l) := by
  obtain ⟨hstate, hlog, houtcome⟩ := h
  refine ⟨hstate, hlog, ?_⟩
  simp only [Machine.locate, Logged.locate]
  obtain ⟨e, hm, hx⟩ | ⟨a, b, hm, hx, hab⟩ := houtcome.cases
  · rw [hm, hx]
    rfl
  · rw [hm, hx]
    exact hab

theorem withFocus {focus : Focus} (h : Follows (s.withFocus focus) R m x) :
    Follows s R (m.withFocus focus) x := by
  refine ⟨?_, h.log, h.outcome⟩
  show (m (s.withFocus focus)).2.withFocus s.focus = s
  rw [h.state]
  rfl

theorem withLocals {locals : Bindings} (h : Follows { s with locals } R m x) :
    Follows s R (m.withLocals locals) x := by
  refine ⟨?_, h.log, h.outcome⟩
  show { (m { s with locals }).2 with locals := s.locals } = s
  rw [h.state]

theorem ite {p : Prop} [Decidable p] {m' : Machine α} {x' : Run β} (h : p → Follows s R m x)
    (h' : ¬p → Follows s R m' x') : Follows s R (if p then m else m') (if p then x else x') := by
  by_cases hp : p
  · rw [if_pos hp, if_pos hp]
    exact h hp
  · rw [if_neg hp, if_neg hp]
    exact h' hp

theorem eq {x : Run α} (h : Follows s Eq m x) : m s = (x, s) := by
  obtain ⟨hstate, hlog, houtcome⟩ := h
  obtain ⟨log, o⟩ := x
  rcases hm : m s with ⟨⟨log', o'⟩, s'⟩
  rw [hm] at hstate hlog houtcome
  obtain rfl : s' = s := hstate
  obtain rfl : log' = log := hlog
  obtain ⟨e, rfl, rfl⟩ | ⟨a, b, rfl, rfl, rfl⟩ := Agree.cases houtcome <;> rfl

theorem gives {b : β} (h : Follows s R m x) (hx : x.Gives b) : ∃ a, (m s).1.Gives a ∧ R a b := by
  obtain ⟨e, -, hx'⟩ | ⟨a, b', hm, hx', hab⟩ := h.outcome.cases
  · exact absurd (hx.symm.trans hx') nofun
  · obtain rfl := Except.ok.inj (hx.symm.trans hx')
    exact ⟨a, hm, hab⟩

theorem of_gives {a : α} (h : Follows s R m x) (hm : (m s).1.Gives a) : ∃ b, x.Gives b ∧ R a b := by
  obtain ⟨e, hm', -⟩ | ⟨a', b, hm', hx, hab⟩ := h.outcome.cases
  · exact absurd (hm.symm.trans hm') nofun
  · obtain rfl := Except.ok.inj (hm.symm.trans hm')
    exact ⟨b, hx, hab⟩

end Follows
end Machine
end TreeQuery
