import TreeQuery.Eval.Expression
import TreeQuery.Proofs.Cursor.Filter
/-!
# Filtering in turn

What is left after one predicate, and after all of them, is a sublist of the items. A predicate that
looks at nothing but where an item stands leaves those at its places (`keepScored_places`): a
positional test leaves the items in its window.
-/

namespace TreeQuery

variable {call : Caller} {env : Env}

abbrev itemsOf (scored : List (Item × Number)) : List Item := scored.map Prod.fst

theorem keepScored_sublist {judge : Nat → Nat → Item → Run (Option Number)} {size : Nat} :
    (items : List (Item × Number)) → {pos : Nat} → {kept : List (Item × Number)} →
    (keepScored judge size pos items).Gives kept → (itemsOf kept).Sublist (itemsOf items)
  | [], _, _, h => by
    simp only [keepScored, Logged.gives_pure] at h
    simp [← h]
  | (item, total) :: rest, pos, kept, h => by
    simp only [keepScored, Logged.gives_bind] at h
    obtain ⟨verdict, -, others, hothers, h⟩ := h
    have ih := keepScored_sublist rest hothers
    cases verdict with
    | none =>
      obtain rfl := Logged.gives_pure.mp h
      exact ih.cons item
    | some score =>
      obtain rfl := Logged.gives_pure.mp h
      exact ih.cons_cons item

theorem filterInTurn_sublist : (es : List Expr) → {items kept : List (Item × Number)} →
    (filterInTurn call env items es).Gives kept → (itemsOf kept).Sublist (itemsOf items)
  | [], items, kept, h => by
    simp only [filterInTurn, Logged.gives_pure] at h
    simp [← h]
  | e :: es, items, kept, h => by
    simp only [filterInTurn, Logged.gives_bind] at h
    obtain ⟨passed, hpassed, hkept⟩ := h
    exact (filterInTurn_sublist es hkept).trans (keepScored_sublist items hpassed)

theorem filterInTurn_length_le {es : List Expr} {items kept : List (Item × Number)}
    (h : (filterInTurn call env items es).Gives kept) : kept.length ≤ items.length := by
  simpa using (filterInTurn_sublist es h).length_le

/-! ### Places -/

section

variable {α β : Type}

/-- The elements at the places that pass, `pos` elements having come before. -/
def keepPlaces (holds : Nat → Bool) : Nat → List α → List α
  | _, [] => []
  | pos, a :: as => if holds (pos + 1) then a :: keepPlaces holds (pos + 1) as else
    keepPlaces holds (pos + 1) as

theorem keepPlaces_sublist (holds : Nat → Bool) :
    (pos : Nat) → (as : List α) → (keepPlaces holds pos as).Sublist as
  | _, [] => .slnil
  | pos, a :: as => by
    rw [keepPlaces]
    split
    · exact (keepPlaces_sublist holds (pos + 1) as).cons_cons a
    · exact (keepPlaces_sublist holds (pos + 1) as).cons a

theorem keepPlaces_map (holds : Nat → Bool) (f : α → β) : (pos : Nat) → (as : List α) →
    keepPlaces holds pos (as.map f) = (keepPlaces holds pos as).map f
  | _, [] => rfl
  | pos, a :: as => by
    simp only [List.map_cons, keepPlaces, keepPlaces_map holds f (pos + 1) as]
    split <;> rfl

theorem keepPlaces_window (w : Window) :
    (pos : Nat) → (as : List α) → keepPlaces w.contains pos as = w.part pos as
  | _, [] => rfl
  | pos, a :: as => by rw [keepPlaces, Window.part, keepPlaces_window w (pos + 1) as]

theorem length_keepPlaces_last {size : Nat} : (pos : Nat) → (as : List α) → pos + as.length = size →
    (keepPlaces (· == size) pos as).length = min as.length 1
  | _, [], _ => rfl
  | pos, a :: as, h => by
    rw [List.length_cons] at h
    have ih := length_keepPlaces_last (pos + 1) as (show pos + 1 + as.length = size by omega)
    rw [keepPlaces, List.length_cons]
    by_cases hlast : pos + 1 = size
    · rw [if_pos (beq_iff_eq.mpr hlast), List.length_cons, ih]
      omega
    · rw [if_neg (mt beq_iff_eq.mp hlast), ih]
      omega

end

theorem keepScored_places {judge : Nat → Nat → Item → Run (Option Number)} (holds : Nat → Bool)
    {size : Nat} : (pos : Nat) →
    (items : List (Item × Number)) →
    (∀ item position, position ≤ pos + items.length →
      judge size position item = pure (if holds position then some .zero else none)) →
    keepScored judge size pos items = pure
      ((keepPlaces holds pos items).map fun entry => (entry.1, entry.2.add .double .zero))
  | _, [], _ => rfl
  | pos, (item, total) :: rest, hjudge => by
    rw [List.length_cons] at hjudge
    have ih := keepScored_places holds (pos + 1) rest fun item position hle =>
      hjudge item position (by omega)
    rw [keepScored, hjudge item (pos + 1) (by omega), ih, keepPlaces]
    cases holds (pos + 1) <;> rfl

theorem Expr.test_position {w : Window} {type : StaticType} {location : Option Location}
    {size : Option Nat} {scoring : Bool} {position : Nat} {item : Item} :
    Expr.test call (env.focusOn size scoring position item) ⟨.position w, type, location⟩ = pure
      (if w.contains position then some .zero else none) := by
  rw [Expr.test]
  rfl

/-- A positional test keeps the items in its window. -/
theorem keepScored_window {w : Window} {size : Nat} (items : List (Item × Number)) {pos : Nat} :
    keepScored (fun _ position _ => pure (if w.contains position then some .zero else none)) size
      pos items = pure ((w.part pos items).map fun entry =>
      (entry.1, entry.2.add .double .zero)) := by
  rw [keepScored_places w.contains pos items fun _ _ _ => rfl, keepPlaces_window]

theorem Window.part_map {α β : Type} (w : Window) (f : α → β) : (pos : Nat) → (as : List α) →
    w.part pos (as.map f) = (w.part pos as).map f
  | _, [] => rfl
  | pos, a :: as => by
    simp only [List.map_cons, Window.part, Window.part_map w f (pos + 1) as]
    split <;> rfl

theorem leadingWindow?_some {predicates : List Expr} {w : Window}
    (h : leadingWindow? predicates = some w) :
    ∃ type location es, predicates = ⟨.position w, type, location⟩ :: es ∧
    ∀ e ∈ es, e.isPositional = false := by
  cases predicates with
  | nil => simp [leadingWindow?] at h
  | cons first es =>
    obtain ⟨form, type, location⟩ := first
    simp only [leadingWindow?] at h
    split at h
    · simp at h
    · next hes =>
      refine ⟨type, location, es, ?_, fun e he => ?_⟩
      · cases form <;> simp [Expr.window?] at h
        rw [h]
      · simpa using fun hp => hes (List.any_eq_true.mpr ⟨e, he, hp⟩)

end TreeQuery
