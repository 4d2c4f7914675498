import TreeQuery.Eval.Operation
import TreeQuery.Proofs.Cursor.Delivery
/-!
# The first items of a cursor

What looking at the first item of a cursor finds, and what decides its truth: nothing for the empty
sequence, an atomic value only if it is the whole sequence, and otherwise a node in front.
-/

namespace TreeQuery

namespace Cursor

variable {scoring : Bool} {c : Cursor}

theorem first?_none_iff : (c.first? scoring).Gives none ↔ c.deliveries scoring = [] := by
  rw [deliveries_eq, first?]
  rcases c.pull scoring with ⟨log, hint⟩ | ⟨log, e | item, score, rest⟩ <;>
    simp [Logged.Gives, Reply.deliveries]

theorem first?_some_iff {item : Item} {rest : Cursor} :
    (c.first? scoring).Gives (some (item, rest)) →
    ∃ score, c.deliveries scoring = (.ok item, score) :: rest.deliveries scoring := by
  rw [deliveries_eq, first?]
  rcases c.pull scoring with ⟨log, hint⟩ | ⟨log, e | item, score, rest⟩ <;>
    simp [Logged.Gives, Reply.deliveries]
  rintro rfl rfl
  exact ⟨rfl, rfl⟩

theorem expectEnd_iff {u : Unit} : (c.expectEnd scoring).Gives u ↔ c.deliveries scoring = [] := by
  rw [← first?_none_iff]
  simp only [expectEnd, Logged.gives_bind]
  constructor
  · rintro ⟨_ | _, h, h'⟩
    · exact h
    · simp at h'
  · exact fun h => ⟨none, h, by simp⟩

variable {l : Option Location}

theorem decider_cases {verdict : Option Item} (h : (c.decider scoring l).Gives verdict) :
    (verdict = none ∧ c.Yields scoring []) ∨
    (∃ v score, verdict = some (.atomic v) ∧ c.Yields scoring [(.atomic v, score)]) ∨
      ∃ n score rest, verdict = some (.node n) ∧
      c.deliveries scoring = (.ok (.node n), score) :: rest := by
  simp only [decider, Logged.gives_bind] at h
  obtain ⟨_ | ⟨n | v | f, rest⟩, hfirst, h⟩ := h
  · exact .inl ⟨(Logged.gives_pure.mp h).symm, first?_none_iff.mp hfirst⟩
  · obtain ⟨score, hd⟩ := first?_some_iff hfirst
    exact .inr (.inr ⟨n, score, _, (Logged.gives_pure.mp h).symm, hd⟩)
  · obtain ⟨score, hd⟩ := first?_some_iff hfirst
    simp only [Logged.gives_bind, Logged.gives_locate, expectEnd_iff, Logged.gives_pure] at h
    obtain ⟨-, hrest, rfl⟩ := h
    exact .inr (.inl ⟨v, score, rfl, by rw [Yields, hd, hrest]; rfl⟩)
  · simp at h

end Cursor
end TreeQuery
