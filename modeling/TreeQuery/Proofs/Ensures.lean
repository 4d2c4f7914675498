import TreeQuery.Proofs.Outcome
/-!
# What a computation ensures

`x.Ensures L Q E` speaks of all that a computation with a log does, whatever comes out of it: every
entry of its log has `L`, its answer has `Q`, and its failure has `E`. The lemmas follow the
combinators of `Logged`; the failure of a place is that of the computation, so `E` must not look at
places.
-/

namespace TreeQuery

/-- Whether a property of failures takes no notice of the place they are reported for. -/
def Placeless (E : Failure → Prop) : Prop := ∀ f l, E f → E (f.locate l)

namespace Logged

variable {ω α β : Type} {L : ω → Prop} {Q R : α → Prop} {S : β → Prop} {E : Failure → Prop}

/-- All entries of the log have `L`, the answer has `Q`, the failure `E`. -/
structure Ensures (x : Logged ω α) (L : ω → Prop) (Q : α → Prop) (E : Failure → Prop) : Prop where
  log : ∀ t ∈ x.log, L t
  answer : ∀ a, x.Gives a → Q a
  failure : ∀ f, x.outcome = .error f → E f

namespace Ensures

theorem mono {x : Logged ω α} (h : x.Ensures L Q E) (hQ : ∀ a, Q a → R a) : x.Ensures L R E :=
  ⟨h.log, fun a ha => hQ a (h.answer a ha), h.failure⟩

theorem pure {a : α} (h : Q a) : (Pure.pure a : Logged ω α).Ensures L Q E := by
  refine ⟨by simp [Pure.pure, Logged.pure], ?_, by simp [Pure.pure, Logged.pure]⟩
  intro b hb
  exact gives_pure.mp hb ▸ h

theorem fail {f : Failure} (h : E f) : (Logged.fail f : Logged ω α).Ensures L Q E := by
  refine ⟨by simp [Logged.fail], fun a ha => absurd ha gives_fail, ?_⟩
  intro g hg
  exact Except.error.inj hg ▸ h

theorem write {entry : ω} (h : L entry) : (Logged.write entry).Ensures L (fun _ => True) E :=
  ⟨fun t ht => List.mem_singleton.mp ht ▸ h, fun _ _ => trivial, fun f hf => by cases hf⟩

theorem lift {x : Except Error α} (hQ : ∀ a, x = .ok a → Q a)
    (hE : ∀ e, x = .error e → E (.error e)) : (Logged.lift x : Logged ω α).Ensures L Q E := by
  refine ⟨?_, fun a ha => hQ a (gives_lift.mp ha), ?_⟩
  · cases x <;> simp [Logged.lift]
  · intro f hf
    cases x with
    | ok a => cases hf
    | error e => exact Except.error.inj hf ▸ hE e rfl

theorem ofOutcome {x : Except Failure α} (hQ : ∀ a, x = .ok a → Q a)
    (hE : ∀ f, x = .error f → E f) : (Logged.ofOutcome x : Logged ω α).Ensures L Q E :=
  ⟨nofun, hQ, hE⟩

theorem locate {x : Logged ω α} (hE : Placeless E) (l : Option Location) (h : x.Ensures L Q E) :
    (x.locate l).Ensures L Q E := by
  refine ⟨h.log, fun a ha => h.answer a (gives_locate.mp ha), ?_⟩
  intro f hf
  obtain ⟨log, g | a⟩ := x
  · obtain rfl : g.locate l = f := Except.error.inj hf
    exact hE g l (h.failure g rfl)
  · cases hf

theorem bind {x : Logged ω α} {f : α → Logged ω β} (hx : x.Ensures L Q E)
    (hf : ∀ a, Q a → (f a).Ensures L S E) : (x >>= f).Ensures L S E := by
  obtain ⟨log, g | a⟩ := x
  · refine ⟨hx.log, fun b hb => absurd hb (by simp [Gives, outcome_bind, Except.bind]), ?_⟩
    intro g' hg
    obtain rfl : g = g' := Except.error.inj hg
    exact hx.failure g rfl
  · have hfa := hf a (hx.answer a rfl)
    refine ⟨?_, fun b hb => hfa.answer b hb, fun g hg => hfa.failure g hg⟩
    intro t ht
    rcases List.mem_append.mp (show t ∈ log ++ (f a).log from ht) with ht | ht
    · exact hx.log t ht
    · exact hfa.log t ht

theorem map {x : Logged ω α} {f : α → β} (h : x.Ensures L (fun a => S (f a)) E) :
    (f <$> x).Ensures L S E := by
  rw [← bind_pure_comp]
  exact h.bind fun a ha => pure ha

theorem prepend {x : Logged ω α} {log : List ω} (hlog : ∀ t ∈ log, L t) (h : x.Ensures L Q E) :
    (x.prepend log).Ensures L Q E := by
  refine ⟨?_, h.answer, h.failure⟩
  intro t ht
  rcases List.mem_append.mp (show t ∈ log ++ x.log from ht) with ht | ht
  · exact hlog t ht
  · exact h.log t ht

/-- A computation may be known to answer something besides what it ensures. -/
theorem gives {x : Logged ω α} (h : x.Ensures L Q E) : x.Ensures L (fun a => Q a ∧ x.Gives a) E :=
  ⟨h.log, fun a ha => ⟨h.answer a ha, ha⟩, h.failure⟩

theorem mapM {f : α → Logged ω β} {as : List α} (h : ∀ a ∈ as, (f a).Ensures L S E) :
    (as.mapM f).Ensures L (fun bs => ∀ b ∈ bs, S b) E := by
  induction as with
  | nil =>
    rw [List.mapM_nil]
    exact pure (by simp)
  | cons a as ih =>
    rw [List.mapM_cons]
    refine (h a List.mem_cons_self).bind fun b hb => ?_
    refine (ih fun a' ha' => h a' (List.mem_cons_of_mem _ ha')).bind fun bs hbs => pure ?_
    intro b' hb'
    rcases List.mem_cons.mp hb' with rfl | hb'
    · exact hb
    · exact hbs b' hb'

end Ensures
end Logged
end TreeQuery
