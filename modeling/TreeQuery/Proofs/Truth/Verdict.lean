import TreeQuery.Proofs.Cursor.Items
import TreeQuery.Proofs.Filter.Strategy
/-!
# Truth as the existence of an item

A sequence that has a truth value is true if and only if an item among it holds: a node, or an
atomic value that is true by itself. Only for the answer `false` the whole sequence has to be there,
which is why a failure behind the deciding item does no harm. The same is said of predicates that
are not positional.
-/

namespace TreeQuery

/-- Whether an item makes a sequence true in which it decides. -/
def Item.Holds : Item → Prop
  | .node _ => True
  | .atomic v => v.isTruthy = true
  | .function _ => False

/-- What is delivered supports an answer: an item with a property, or all items and none that has
it. -/
def Supports (P : Item → Prop) (ds : List Delivery) : Bool → Prop
  | true => ∃ item ∈ delivered ds, P item
  | false => Clean ds ∧ ∀ item ∈ delivered ds, ¬P item

namespace Cursor

variable {scoring : Bool} {c : Cursor} {l : Option Location} {b : Bool}

theorem supports_none (h : c.Yields scoring []) :
    Supports Item.Holds (c.deliveries scoring) false := by
  rw [show c.deliveries scoring = [] from h]
  exact ⟨clean_nil, by simp⟩

theorem supports_atomic {v : Atomic} {score : Option Number}
    (h : c.Yields scoring [(.atomic v, score)]) :
    Supports Item.Holds (c.deliveries scoring) v.isTruthy := by
  rw [show c.deliveries scoring = [(.ok (.atomic v), score)] from h]
  cases htruth : v.isTruthy
  · exact ⟨trivial, by simp [Item.Holds, htruth]⟩
  · exact ⟨.atomic v, List.mem_cons_self, htruth⟩

theorem supports_node {n : NodeId} {score : Option Number} {rest : List Delivery}
    (h : c.deliveries scoring = (.ok (.node n), score) :: rest) :
    Supports Item.Holds (c.deliveries scoring) true := by
  rw [h]
  exact ⟨.node n, List.mem_cons_self, trivial⟩

theorem truth_supports (h : (c.truth scoring l).Gives b) :
    Supports Item.Holds (c.deliveries scoring) b := by
  simp only [truth, Logged.gives_bind] at h
  obtain ⟨verdict, hverdict, h⟩ := h
  rcases decider_cases hverdict with ⟨rfl, hy⟩ | ⟨v, score, rfl, hy⟩ | ⟨n, score, rest, rfl, hd⟩
  · exact Logged.gives_pure.mp h ▸ supports_none hy
  · exact Logged.gives_pure.mp h ▸ supports_atomic hy
  · exact Logged.gives_pure.mp h ▸ supports_node hd

theorem predicateTruth_supports {position : Nat}
    (hv : ∀ v score, c.Yields scoring [(.atomic v, score)] → v.number? = none)
    (h : (c.predicateTruth scoring l position).Gives b) :
    Supports Item.Holds (c.deliveries scoring) b := by
  simp only [predicateTruth, Logged.gives_bind] at h
  obtain ⟨verdict, hverdict, h⟩ := h
  rcases decider_cases hverdict with ⟨rfl, hy⟩ | ⟨v, score, rfl, hy⟩ | ⟨n, score, rest, rfl, hd⟩
  · exact Logged.gives_pure.mp h ▸ supports_none hy
  · simp only [hv v score hy, Logged.gives_pure] at h
    exact h ▸ supports_atomic hy
  · exact Logged.gives_pure.mp h ▸ supports_node hd

theorem supports_ofBool : Supports Item.Holds ((ofBool b).deliveries scoring) b :=
  supports_atomic (yields_ofList [.atomic (.boolean b)])

theorem eq_of_supports_ofBool {b' : Bool}
    (h : Supports Item.Holds ((ofBool b).deliveries scoring) b') : b' = b := by
  have holds : (∃ item ∈ delivered ((ofBool b).deliveries scoring), item.Holds) ↔ b = true := by
    simp [ofBool, single, Item.Holds, Atomic.isTruthy]
  cases b'
  · cases b
    · rfl
    · obtain ⟨item, hitem, hholds⟩ := holds.mpr rfl
      exact absurd hholds (h.2 item hitem)
  · exact (holds.mp h).symm

end Cursor

section

variable {call : Caller} {env : Env}

theorem Expr.truth_gives {e : Expr} {b : Bool} (h : (e.truth call env).Gives b) :
    ∃ c, (e.iterate call env).Gives c ∧ Supports Item.Holds (c.deliveries env.scoring) b := by
  obtain ⟨form, type, l⟩ := e
  simp only [truth, Logged.gives_bind] at h
  obtain ⟨c, hc, h⟩ := h
  exact ⟨c, by rwa [iterate], Cursor.truth_supports h⟩

/-! ### Predicates -/

/-- The value of a predicate that is not positional supports its verdict. -/
theorem Expr.test_gives {e : Expr} (he : e.isPositional = false) (sound : e.SoundAt call env)
    {verdict : Option Number} (h : (e.test call env).Gives verdict) :
    ∃ c, (e.iterate call env).Gives c ∧
    Supports Item.Holds (c.deliveries env.scoring) verdict.isSome := by
  simp only [isPositional, Bool.or_eq_false_iff] at he
  obtain ⟨hnumber, hposition⟩ := he
  obtain ⟨form, type, l⟩ := e
  have hform : form.dependsOn .position = false := by simpa [dependsOn] using hposition
  by_cases hw : ∃ w, form = .position w
  · obtain ⟨w, rfl⟩ := hw
    simp [Form.dependsOn] at hform
  by_cases hs : ∃ input query, form = .containsText input query
  · obtain ⟨input, query, rfl⟩ := hs
    simp only [test, Logged.gives_bind, Logged.gives_locate, Logged.gives_pure] at h
    obtain ⟨m, hm, rfl⟩ := h
    refine ⟨.ofBool m.found, ?_, ?_⟩
    · simp only [iterate, Form.iterate, Logged.gives_locate, Logged.gives_bind, Logged.gives_pure]
      exact ⟨m, hm, rfl⟩
    · cases m.found <;> exact Cursor.supports_ofBool
  simp only [not_exists] at hw hs
  rw [test_of_other hw hs] at h
  simp only [Logged.gives_bind, Logged.gives_pure] at h
  obtain ⟨c, hc, b, hb, rfl⟩ := h
  have hc : (iterate call env ⟨form, type, l⟩).Gives c := by rwa [iterate]
  refine ⟨c, hc, ?_⟩
  have hsupports := Cursor.predicateTruth_supports (fun v score hy => ?_) hb
  · cases b <;> exact hsupports
  · exact sound.number?_eq_none hnumber hc hy

end

end TreeQuery
