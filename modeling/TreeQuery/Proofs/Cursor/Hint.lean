import TreeQuery.Proofs.Check.Agreement
/-!
# Size hints along a cursor

`SizeHint.Bounds` is what a hint promises of the deliveries to come: no fewer than its lower bound,
and of those that count no more than its upper bound. Items count, and failures where the flag says
so. `Cursor.HintsHold` demands it of every hint on the way to the end (`Cursor.HintsHold.after`).
Selections and concatenations keep it either way. A window and a type check cap their hint by
numbers of items, so they keep it for items alone, a window also for failures if its input has none.
-/

namespace TreeQuery

/-- The number of items, and of failures too if `failures` says so. -/
def counted (failures : Bool) : List Delivery → Nat
  | [] => 0
  | (.ok _, _) :: ds => counted failures ds + 1
  | (.error _, _) :: ds => counted failures ds + failures.toNat

theorem counted_true : (ds : List Delivery) → counted true ds = ds.length
  | [] => rfl
  | (.ok _, _) :: ds | (.error _, _) :: ds => by simp [counted, counted_true ds]

theorem counted_false : (ds : List Delivery) → counted false ds = (delivered ds).length
  | [] => rfl
  | (.ok _, _) :: ds | (.error _, _) :: ds => by simp [counted, counted_false ds]

theorem Clean.length_delivered : {ds : List Delivery} → Clean ds → (delivered ds).length = ds.length
  | [], _ => rfl
  | (.ok _, _) :: _, h => by
    rw [delivered_ok, List.length_cons, List.length_cons, Clean.length_delivered (clean_ok.mp h)]
  | (.error _, _) :: _, h => absurd h clean_error

theorem counted_le_length {failures : Bool} : (ds : List Delivery) → counted failures ds ≤ ds.length
  | [] => Nat.le_refl 0
  | (.ok _, _) :: ds => Nat.succ_le_succ (counted_le_length ds)
  | (.error _, _) :: ds => Nat.add_le_add (counted_le_length ds) (Bool.toNat_le failures)

/-- The bounds of the hint are right for the deliveries to come. -/
structure SizeHint.Bounds (failures : Bool) (hint : SizeHint) (ds : List Delivery) : Prop where
  lower : hint.lower ≤ ds.length
  upper : ∀ u, hint.upper = some u → counted failures ds ≤ u

namespace SizeHint

variable {failures : Bool} {hint : SizeHint} {ds out : List Delivery}

theorem bounds_unknown : unknown.Bounds failures ds := ⟨Nat.zero_le _, fun _ h => by cases h⟩

theorem Bounds.atMost (h : hint.Bounds failures ds)
    (hle : counted failures out ≤ counted failures ds) : hint.atMost.Bounds failures out :=
  ⟨Nat.zero_le _, fun u hu => Nat.le_trans hle (h.upper u hu)⟩

theorem Bounds.capped {limit : Option Nat} (h : hint.Bounds failures ds)
    (hle : counted failures out ≤ counted failures ds)
    (hlimit : ∀ n, limit = some n → counted failures out ≤ n) :
    (hint.capped limit).Bounds failures out := by
  refine ⟨Nat.zero_le _, fun u hu => ?_⟩
  simp only [SizeHint.capped] at hu
  split at hu
  · next a n ha =>
    have := Nat.le_trans hle (h.upper a ha)
    have := hlimit n rfl
    rw [← Option.some.inj hu]
    omega
  · next a ha =>
    rw [← Option.some.inj hu]
    exact Nat.le_trans hle (h.upper a ha)
  · exact hlimit u hu

theorem capped_bounds_nil (limit : Option Nat) : (hint.capped limit).Bounds failures [] :=
  ⟨Nat.le_refl 0, fun u _ => Nat.zero_le u⟩

end SizeHint

mutual

/-- Every hint is right, now and after each pull. -/
def Cursor.HintsHold (scoring failures : Bool) : Cursor → Prop
  | .mk hint pull => hint.Bounds failures ((pull scoring).deliveries scoring) ∧
    (pull scoring).HintsHold scoring failures

def Reply.HintsHold (scoring failures : Bool) : Reply → Prop
  | .ended _ hint => hint.Bounds failures []
  | .yielded _ _ _ rest => rest.HintsHold scoring failures

end

section Cursors

variable {scoring failures : Bool} {c next : Cursor}

namespace Cursor

theorem hintsHold_finished {hint : SizeHint} (h : hint.Bounds failures []) :
    (finished hint).HintsHold scoring failures := ⟨h, h⟩

theorem HintsHold.pull (h : c.HintsHold scoring failures) :
    (c.pull scoring).HintsHold scoring failures := by
  obtain ⟨hint, pull⟩ := c
  exact h.2

theorem HintsHold.bounds (h : c.HintsHold scoring failures) :
    c.hint.Bounds failures (c.deliveries scoring) := by
  obtain ⟨hint, pull⟩ := c
  exact h.1

theorem HintsHold.after (h : c.HintsHold scoring failures) (n : Nat) :
    (c.after scoring n).HintsHold scoring failures := by
  induction n generalizing c with
  | zero => exact h
  | succ n ih =>
    have hpull := h.pull
    show ((c.pull scoring).rest.after scoring n).HintsHold scoring failures
    cases hreply : c.pull scoring with
    | ended log hint => exact ih (hintsHold_finished (by rwa [hreply] at hpull))
    | yielded log outcome score rest => exact ih (by rwa [hreply] at hpull)

/-! ### Lists -/

theorem bounds_exactly {ds : List Delivery} {n : Nat} (h : ds.length = n) :
    (SizeHint.exactly n).Bounds failures ds :=
  ⟨Nat.le_of_eq h.symm, fun _ hu => Option.some.inj hu ▸ h ▸ counted_le_length ds⟩

theorem hintsHold_ofScored : (items : List (Item × Option Number)) →
    (ofScored items).HintsHold scoring failures
  | [] => hintsHold_finished (bounds_exactly rfl)
  | (item, score) :: items => by
    rw [ofScored_cons]
    refine ⟨bounds_exactly ?_, hintsHold_ofScored items⟩
    have h : (ofScored items).deliveries scoring = _ := yields_ofScored items
    simp [Reply.deliveries, h]

theorem hintsHold_ofList : (items : List Item) → (ofList items).HintsHold scoring failures
  | [] => hintsHold_finished (bounds_exactly rfl)
  | item :: items => by
    refine ⟨bounds_exactly ?_, hintsHold_ofList items⟩
    have h : (ofPlain items.length items).deliveries scoring = _ :=
      deliveries_ofPlain items.length items
    show (_ :: (ofPlain items.length items).deliveries scoring).length = _
    simp [h]

end Cursor

/-! ### Concatenation -/

theorem Reply.HintsHold.after {r : Reply} (h : r.HintsHold scoring failures) (log : List Trace) :
    (r.after log).HintsHold scoring failures := by
  cases r <;> exact h

theorem Reply.hintsHold_append (hnext : next.HintsHold scoring failures) : (r : Reply) →
    (r.append next scoring).HintsHold scoring failures
  | .ended log _ => hnext.pull.after log
  | .yielded _ _ _ (.mk _ pull) =>
    ⟨SizeHint.bounds_unknown, Reply.hintsHold_append hnext (pull scoring)⟩

theorem Reply.hintsHold_chain {link : Link} : (r : Reply) → (pos : Nat) →
    (r.chain link pos scoring).HintsHold scoring failures
  | .ended .., _ => SizeHint.bounds_unknown
  | .yielded _ (.error _) _ (.mk _ pull), pos =>
    ⟨SizeHint.bounds_unknown, Reply.hintsHold_chain (pull scoring) pos⟩
  | .yielded log (.ok item) score (.mk hint pull), pos => by
    have ih (pos : Nat) : ((Cursor.mk hint pull).chain link pos).HintsHold scoring failures :=
      ⟨SizeHint.bounds_unknown, Reply.hintsHold_chain (pull scoring) pos⟩
    simp only [Reply.chain]
    cases link.accept item with
    | error e => exact ih pos
    | ok u =>
      cases (link.start scoring (pos + 1) item).outcome with
      | error e => exact ih (pos + 1)
      | ok current => exact (Reply.hintsHold_append (ih (pos + 1)) (current.pull scoring)).after _

theorem Cursor.hintsHold_chain {link : Link} (c : Cursor) (pos : Nat) :
    (c.chain link pos).HintsHold scoring failures := by
  obtain ⟨hint, pull⟩ := c
  exact ⟨SizeHint.bounds_unknown, Reply.hintsHold_chain (pull scoring) pos⟩

/-! ### Selections -/

variable {judge : Judgement}

theorem Reply.counted_select : (r : Reply) → (pos : Nat) → (earlier : List Trace) →
    counted failures ((r.select judge pos scoring earlier).deliveries scoring) ≤ counted failures
      (r.deliveries scoring)
  | .ended .., _, _ => Nat.le_refl 0
  | .yielded _ (.error _) _ (.mk _ pull), pos, _ =>
    Nat.add_le_add_right (Reply.counted_select (pull scoring) pos []) _
  | .yielded log (.ok item) score (.mk hint pull), pos, earlier => by
    have ih (earlier : List Trace) := Reply.counted_select (pull scoring) (pos + 1) earlier
    simp only [Reply.select, Reply.deliveries, Cursor.deliveries, counted]
    cases (judge scoring (pos + 1) item).outcome with
    | error e => exact Nat.add_le_add (ih []) (Bool.toNat_le failures)
    | ok verdict =>
      cases verdict with
      | none => exact Nat.le_succ_of_le (ih _)
      | some score => exact Nat.succ_le_succ (ih [])

theorem Cursor.counted_select (c : Cursor) (pos : Nat) :
    counted failures ((c.select judge pos).deliveries scoring) ≤ counted failures
      (c.deliveries scoring) := by
  obtain ⟨hint, pull⟩ := c
  exact Reply.counted_select (pull scoring) pos []

mutual

theorem Cursor.HintsHold.select : {c : Cursor} → c.HintsHold scoring failures → (pos : Nat) →
    (c.select judge pos).HintsHold scoring failures
  | .mk _ pull, h, pos =>
    ⟨h.1.atMost (Reply.counted_select (pull scoring) pos []), Reply.HintsHold.select h.2 pos []⟩

theorem Reply.HintsHold.select : {r : Reply} → r.HintsHold scoring failures → (pos : Nat) →
    (earlier : List Trace) →
    (r.select judge pos scoring earlier).HintsHold scoring failures
  | .ended .., h, _, _ => h.atMost (Nat.le_refl _)
  | .yielded _ (.error _) _ rest, h, pos, _ => Cursor.HintsHold.select (c := rest) h pos
  | .yielded log (.ok item) score (.mk hint pull), h, pos, earlier => by
    have hrest : (Cursor.select judge (pos + 1) (.mk hint pull)).HintsHold scoring failures :=
      Cursor.HintsHold.select h (pos + 1)
    simp only [Reply.select]
    cases (judge scoring (pos + 1) item).outcome with
    | error e => exact hrest
    | ok verdict =>
      cases verdict with
      | none => exact Reply.HintsHold.select h.2 (pos + 1) _
      | some score => exact hrest

end

/-! ### Windows -/

variable {w : Window}

def Window.left (w : Window) (pos : Nat) : Nat := w.last - max (w.first - 1) pos

theorem Window.left_le_width (w : Window) (pos : Nat) : w.left pos ≤ w.width := by
  have := w.one_le_first
  have := w.last_le_noEnd
  unfold left width
  split <;> omega

/-- Of a window there comes no more than its input has, and one thing for each position that is
left. Failures of the input have no position. -/
structure Capped (failures : Bool) (w : Window) (pos : Nat) (ds out : List Delivery) : Prop where
  le_input : counted failures out ≤ counted failures ds
  le_left : counted failures out ≤ w.left pos

theorem Capped.nil {pos : Nat} {ds : List Delivery} : Capped failures w pos ds [] :=
  ⟨Nat.zero_le _, Nat.zero_le _⟩

theorem Capped.cons {pos n : Nat} {item : Item} {score : Option Number}
    {ds out out' : List Delivery} (h : Capped failures w (pos + 1) ds out)
    (hn : counted failures out' ≤ counted failures out + n) (hone : n ≤ 1) (hpos : pos < w.last)
    (hin : n = 0 ∨ w.first ≤ pos + 1) : Capped failures w pos ((.ok item, score) :: ds) out' := by
  obtain ⟨hinput, hleft⟩ := h
  unfold Window.left at hleft
  refine ⟨?_, ?_⟩
  · simp only [counted]
    omega
  · unfold Window.left
    omega

theorem Reply.capped : (r : Reply) → (pos : Nat) → pos < w.last →
    (failures = false ∨ Clean (r.deliveries scoring)) →
    (earlier : List Trace) →
    Capped failures w pos (r.deliveries scoring)
      ((r.window w judge pos scoring earlier).deliveries scoring)
  | .ended .., _, _, _, _ => .nil
  | .yielded log (.error e) score (.mk hint pull), pos, hpos, hclean, earlier => by
    -- items alone count
    have hitems : failures = false := hclean.resolve_right clean_error
    have ih := Reply.capped (pull scoring) pos hpos (.inl hitems) []
    simp only [Reply.window, Reply.deliveries, Cursor.window, Cursor.deliveries, if_pos hpos]
    exact ⟨Nat.add_le_add_right ih.le_input _, by simpa [counted, hitems] using ih.le_left⟩
  | .yielded log (.ok item) score (.mk hint pull), pos, hpos, hclean, earlier => by
    -- the rest of the window, whether there is one or not
    have ih (earlier logged : List Trace) (hint : SizeHint) : Capped failures w (pos + 1)
      ((pull scoring).deliveries scoring)
        ((if pos + 1 < w.last then (pull scoring).window w judge (pos + 1) scoring earlier
          else .ended logged hint).deliveries scoring) := by
      split
      · next hlt => exact Reply.capped (pull scoring) (pos + 1) hlt hclean earlier
      · exact .nil
    simp only [Reply.deliveries, Cursor.deliveries]
    by_cases hbefore : pos + 1 < w.first
    · simp only [Reply.window, if_pos hbefore]
      exact (ih _ _ _).cons (Nat.le_refl _) (Nat.zero_le 1) hpos (.inl rfl)
    · simp only [Reply.window, if_neg hbefore]
      have hin : w.first ≤ pos + 1 := Nat.le_of_not_lt hbefore
      cases (judge scoring (pos + 1) item).outcome with
      | error e => exact (ih [] [] (hint.capped (some w.width))).cons (Nat.le_refl _) (Bool.toNat_le failures) hpos (.inr hin)
      | ok verdict =>
        cases verdict with
        | none => exact (ih _ _ _).cons (Nat.le_refl _) (Nat.zero_le 1) hpos (.inl rfl)
        | some score =>
          exact (ih [] [] (hint.capped (some w.width))).cons (Nat.le_refl _)
            (Nat.le_refl 1) hpos (.inr hin)

theorem SizeHint.Bounds.window {hint : SizeHint} {pos : Nat} {ds out : List Delivery}
    (h : hint.Bounds failures ds) (hcapped : Capped failures w pos ds out) :
    (hint.capped (some w.width)).Bounds failures out :=
  h.capped hcapped.le_input fun _ hn => Option.some.inj hn ▸ Nat.le_trans hcapped.le_left
    (w.left_le_width pos)

mutual

theorem Cursor.HintsHold.window : {c : Cursor} → c.HintsHold scoring failures →
    failures = false ∨ Clean (c.deliveries scoring) → (pos : Nat) →
    (c.window w judge pos).HintsHold scoring failures
  | .mk hint pull, h, hclean, pos => by
    have hdone : ((hint.capped (some w.width))).Bounds failures [] := SizeHint.capped_bounds_nil _
    rw [Cursor.window, Cursor.HintsHold]
    split
    · next hpos =>
        exact ⟨h.1.window (Reply.capped (pull scoring) pos hpos hclean []),
          Reply.HintsHold.window h.2 hclean pos []⟩
    · exact ⟨hdone, hdone⟩

theorem Reply.HintsHold.window : {r : Reply} → r.HintsHold scoring failures →
    failures = false ∨ Clean (r.deliveries scoring) → (pos : Nat) → (earlier : List Trace) →
    (r.window w judge pos scoring earlier).HintsHold scoring failures
  | .ended .., _, _, _, _ => SizeHint.capped_bounds_nil _
  | .yielded _ (.error _) _ rest, h, hclean, pos, _ =>
    Cursor.HintsHold.window (c := rest) h (.inl (hclean.resolve_right clean_error)) pos
  | .yielded log (.ok item) score (.mk hint pull), h, hclean, pos, earlier => by
    have hrest : (Cursor.window w judge (pos + 1) (.mk hint pull)).HintsHold scoring failures :=
      Cursor.HintsHold.window h hclean (pos + 1)
    simp only [Reply.window]
    split
    · exact hrest
    · exact hrest
    · split
      · exact Reply.HintsHold.window h.2 hclean (pos + 1) _
      · exact SizeHint.capped_bounds_nil _

end

/-! ### Type checks -/

variable {t : TypeCheck} {forest : Forest}

theorem SizeHint.Bounds.check {hint : SizeHint} {count : Nat} {ds out : List Delivery}
    (h : hint.Bounds false ds) (hchecked : Checked t forest count ds out)
    (hroom : ∀ limit, t.target.occurrence.max = some limit → count ≤ limit) :
    (hint.capped t.target.occurrence.max).Bounds false out := by
  refine h.capped ?_ fun limit hlimit => ?_
  · rw [counted_false, counted_false]
    exact hchecked.length_le
  · have := hchecked.le_max limit hlimit (hroom limit hlimit)
    rw [counted_false]
    omega

mutual

theorem Cursor.HintsHold.check : {c : Cursor} → c.HintsHold scoring false → (count : Nat) →
    (∀ limit, t.target.occurrence.max = some limit → count ≤ limit) →
    (c.check t forest count).HintsHold scoring false
  | .mk _ pull, h, count, hroom =>
    ⟨h.1.check (Reply.checked (pull scoring) count) hroom, Reply.HintsHold.check h.2 count hroom⟩

theorem Reply.HintsHold.check : {r : Reply} → r.HintsHold scoring false → (count : Nat) →
    (∀ limit, t.target.occurrence.max = some limit → count ≤ limit) →
    (r.check t forest count).HintsHold scoring false
  | .ended log hint, _, count, _ => by
    simp only [Reply.check]
    split
    · exact Cursor.hintsHold_finished (SizeHint.capped_bounds_nil _)
    · exact SizeHint.capped_bounds_nil _
  | .yielded _ (.error _) _ _, _, _, _ => Cursor.hintsHold_finished (SizeHint.capped_bounds_nil _)
  | .yielded log (.ok item) score rest, h, count, _ => by
    simp only [Reply.check]
    split
    · exact Cursor.hintsHold_finished (SizeHint.capped_bounds_nil _)
    · next hnext => exact Cursor.HintsHold.check (c := rest) h (count + 1) (TypeCheck.next_gives hnext).2

end

end Cursors
end TreeQuery
