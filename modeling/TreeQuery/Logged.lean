import TreeQuery.Error
/-!
# Computations with a log

Compiling writes notes and evaluating writes trace entries, both also when they fail in the end.
`Logged ω α` is a log of `ω` and then a failure or an answer; its bind writes the log of the first
part before that of the second and runs the second only on an answer.
-/

namespace TreeQuery

/-- A log, and the outcome after it. -/
structure Logged (ω α : Type) where
  log : List ω
  outcome : Except Failure α

namespace Logged

variable {ω α β : Type}

protected def pure (a : α) : Logged ω α := ⟨[], .ok a⟩

protected def bind (x : Logged ω α) (f : α → Logged ω β) : Logged ω β :=
  match x with
  | ⟨log, .ok a⟩ => let y := f a; ⟨log ++ y.log, y.outcome⟩
  | ⟨log, .error e⟩ => ⟨log, .error e⟩

instance : Monad (Logged ω) where
  pure := Logged.pure
  bind := Logged.bind

def fail (f : Failure) : Logged ω α := ⟨[], .error f⟩

def failWith (c : Cause) : Logged ω α := fail (.of c)

def write (entry : ω) : Logged ω Unit := ⟨[entry], .ok ()⟩

def ofOutcome (x : Except Failure α) : Logged ω α := ⟨[], x⟩

/-- Takes over the outcome of something that logs nothing and fails with errors only. -/
def lift (x : Except Error α) : Logged ω α :=
  match x with
  | .ok a => ⟨[], .ok a⟩
  | .error e => ⟨[], .error (.error e)⟩

def locate (x : Logged ω α) (l : Option Location) : Logged ω α :=
  ⟨x.log, match x.outcome with
    | .ok a => .ok a
    | .error f => .error (f.locate l)⟩

def prepend (log : List ω) (x : Logged ω α) : Logged ω α := ⟨log ++ x.log, x.outcome⟩

/-! ### Laws -/

@[simp] theorem pure_bind (a : α) (f : α → Logged ω β) : (pure a >>= f) = f a := rfl

@[simp] theorem fail_bind (e : Failure) (f : α → Logged ω β) : (fail e >>= f) = fail e := rfl

theorem outcome_bind (x : Logged ω α) (f : α → Logged ω β) :
    (x >>= f).outcome = x.outcome.bind fun a => (f a).outcome := by
  obtain ⟨log, a | e⟩ := x <;> rfl

private theorem id_map_logged (x : Logged ω α) : id <$> x = x := by
  obtain ⟨log, a | e⟩ := x <;> simp [Functor.map, Logged.bind, Logged.pure]

private theorem bind_assoc_logged {γ : Type} (x : Logged ω α) (f : α → Logged ω β)
    (g : β → Logged ω γ) : x >>= f >>= g = x >>= fun a => f a >>= g := by
  obtain ⟨log, e | a⟩ := x
  · rfl
  · show Logged.bind (Logged.bind _ f) g = Logged.bind _ fun b => Logged.bind (f b) g
    simp only [Logged.bind]
    obtain ⟨log', e | b⟩ := f a <;> simp

instance : LawfulMonad (Logged ω) := .mk' _ id_map_logged (fun _ _ => rfl) bind_assoc_logged

end Logged
end TreeQuery
