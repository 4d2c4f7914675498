import TreeQuery.Cursor.Basic
import TreeQuery.Proofs.Outcome
/-!
# What a cursor delivers

`Cursor.deliveries` lists all replies of a cursor before its end, without hints and logs. A cursor
`Yields` scored items if it delivers these and no failure; folding, draining and counting succeed
just for such cursors, and `drain_iff` and the lemmas after it say with what answer.
-/

namespace TreeQuery

/-- An item or a failure, with a score. -/
abbrev Delivery := Except Failure Item × Option Number

def Delivery.ofItem (entry : Item × Option Number) : Delivery := (.ok entry.1, entry.2)

mutual

/-- All that a cursor delivers before its end, if it is pulled with or without scores all the
way. -/
def Cursor.deliveries (scoring : Bool) : Cursor → List Delivery
  | .mk _ pull => (pull scoring).deliveries scoring

def Reply.deliveries (scoring : Bool) : Reply → List Delivery
  | .ended .. => []
  | .yielded _ outcome score rest => (outcome, score) :: rest.deliveries scoring

end

namespace Cursor

variable {scoring : Bool} {c : Cursor}

theorem deliveries_eq (c : Cursor) :
    c.deliveries scoring = (c.pull scoring).deliveries scoring := by
  obtain ⟨hint, pull⟩ := c
  rfl

/-- The cursor delivers the items with their scores, and no failure. -/
def Yields (scoring : Bool) (c : Cursor) (entries : List (Item × Option Number)) : Prop :=
  c.deliveries scoring = entries.map Delivery.ofItem

variable {entries : List (Item × Option Number)}

/-! ### Cursors over lists -/

theorem yields_ofScored : (items : List (Item × Option Number)) →
    (ofScored items).Yields scoring items
  | [] => rfl
  | (item, score) :: rest => by
    have ih : (ofScored rest).deliveries scoring = _ := yields_ofScored rest
    simp [Yields, deliveries, Reply.deliveries, ih, Delivery.ofItem]

theorem deliveries_ofPlain : (n : Nat) → (items : List Item) →
    (ofPlain n items).deliveries scoring = items.map fun item => (.ok item, none)
  | _, [] => rfl
  | n, item :: rest => by
    simp [ofPlain, deliveries, Reply.deliveries, deliveries_ofPlain (n - 1) rest]

theorem yields_ofList (items : List Item) :
    (ofList items).Yields scoring (items.map fun item => (item, none)) := by
  simp [Yields, ofList, deliveries_ofPlain, Delivery.ofItem, Function.comp_def]

end Cursor

/-! ### Consuming -/

def foldDeliveries {β : Type} (step : β → Item → Option Number → Except Failure β) :
    β → List Delivery → Except Failure β
  | b, [] => .ok b
  | _, (.error e, _) :: _ => .error e
  | b, (.ok item, score) :: ds => (step b item score).bind fun b => foldDeliveries step b ds

variable {β : Type} {scoring : Bool}

theorem Reply.outcome_fold (step : β → Item → Option Number → Run β) :
    (r : Reply) → (b : β) → (earlier : List Trace) →
    (r.fold scoring step b earlier).outcome =
      foldDeliveries (fun b item score => (step b item score).outcome) b (r.deliveries scoring)
  | .ended .., _, _ => rfl
  | .yielded _ (.error _) _ _, _, _ => rfl
  | .yielded log (.ok item) score (.mk hint pull), b, earlier => by
    simp only [Reply.fold, Reply.deliveries, Cursor.deliveries, foldDeliveries]
    obtain ⟨own, e | b'⟩ := step b item score
    · rfl
    · exact Reply.outcome_fold step (pull scoring) b' _

namespace Cursor

variable {c : Cursor} {entries : List (Item × Option Number)}

theorem outcome_fold (step : β → Item → Option Number → Run β) (b : β) :
    (c.fold scoring step b).outcome =
      foldDeliveries (fun b item score => (step b item score).outcome) b
        (c.deliveries scoring) := by
  rw [fold, Reply.outcome_fold, deliveries_eq]

end Cursor

theorem foldDeliveries_ok_iff (step : β → Item → Option Number → β) :
    (ds : List Delivery) → (b b' : β) →
    (foldDeliveries (fun b item score => .ok (step b item score)) b ds = .ok b' ↔
      ∃ entries : List (Item × Option Number), ds = entries.map Delivery.ofItem ∧
        b' = entries.foldl (fun b entry => step b entry.1 entry.2) b)
  | [], b, b' => by simp [foldDeliveries, eq_comm]
  | (.error e, score) :: ds, b, b' => by
    refine ⟨fun h => by simp [foldDeliveries] at h, ?_⟩
    rintro ⟨_ | ⟨entry, entries⟩, h, -⟩
    · simp at h
    · simp [Delivery.ofItem] at h
  | (.ok item, score) :: ds, b, b' => by
    rw [show foldDeliveries _ b ((.ok item, score) :: ds) = foldDeliveries _
      (step b item score) ds from rfl,
      foldDeliveries_ok_iff step ds]
    constructor
    · rintro ⟨entries, rfl, rfl⟩
      exact ⟨(item, score) :: entries, rfl, rfl⟩
    · rintro ⟨_ | ⟨entry, entries⟩, h, rfl⟩
      · simp at h
      · simp only [List.map_cons, List.cons.injEq, Delivery.ofItem, Prod.mk.injEq,
          Except.ok.injEq] at h
        obtain ⟨⟨rfl, rfl⟩, rfl⟩ := h
        exact ⟨entries, rfl, rfl⟩

namespace Cursor

variable {c : Cursor} {entries : List (Item × Option Number)}

theorem gives_fold_iff {step : β → Item → Option Number → β} {b b' : β} :
    (c.fold scoring (fun b item score => pure (step b item score)) b).Gives b' ↔
      ∃ entries, c.Yields scoring entries ∧
      b' = entries.foldl (fun b entry => step b entry.1 entry.2) b := by
  rw [Logged.Gives, outcome_fold]
  exact foldDeliveries_ok_iff step _ b b'

theorem foldl_cons_eq {α : Type} (f : Item × Option Number → α) :
    (entries : List (Item × Option Number)) → (seen : List α) →
    entries.foldl (fun items entry => f entry :: items) seen = (entries.map f).reverse ++ seen
  | [], seen => rfl
  | entry :: rest, seen => by simp [foldl_cons_eq f rest]

end Cursor

@[simp] theorem gives_keep_iff {reversed items : List β} :
    (keep reversed).Gives items ↔ reversed.length ≤ memoryLimit ∧ items = reversed.reverse := by
  simp only [keep, Logged.gives_ite, Logged.gives_pure, Logged.gives_fail, and_false,
    or_false, eq_comm]

namespace Cursor

variable {c : Cursor}

theorem drain_iff {items : List Item} :
    (c.drain scoring).Gives items ↔
      ∃ entries, c.Yields scoring entries ∧ entries.length ≤ memoryLimit ∧
      items = entries.map Prod.fst := by
  simp only [drain, Logged.gives_bind, gives_fold_iff, gives_keep_iff]
  constructor
  · rintro ⟨_, ⟨entries, h, rfl⟩, hlimit, rfl⟩
    rw [foldl_cons_eq Prod.fst] at *
    exact ⟨entries, h, by simpa using hlimit, by simp⟩
  · rintro ⟨entries, h, hlimit, rfl⟩
    refine ⟨_, ⟨entries, h, rfl⟩, ?_⟩
    rw [foldl_cons_eq Prod.fst]
    simpa using hlimit

theorem drainScored_iff {items : List (Item × Number)} :
    (c.drainScored scoring).Gives items ↔
      ∃ entries, c.Yields scoring entries ∧ entries.length ≤ memoryLimit ∧
        items = entries.map fun entry => (entry.1, entry.2.getD .zero) := by
  simp only [drainScored, Logged.gives_bind, gives_fold_iff, gives_keep_iff]
  constructor
  · rintro ⟨_, ⟨entries, h, rfl⟩, hlimit, rfl⟩
    rw [foldl_cons_eq fun entry => (entry.1, entry.2.getD .zero)] at *
    exact ⟨entries, h, by simpa using hlimit, by simp⟩
  · rintro ⟨entries, h, hlimit, rfl⟩
    refine ⟨_, ⟨entries, h, rfl⟩, ?_⟩
    rw [foldl_cons_eq fun entry => (entry.1, entry.2.getD .zero)]
    simpa using hlimit

end Cursor
end TreeQuery
