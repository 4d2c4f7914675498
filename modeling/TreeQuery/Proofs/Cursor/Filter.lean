import TreeQuery.Cursor.Filter
import TreeQuery.Proofs.Cursor.Delivery
/-!
# What streaming filters deliver

Over a cursor that yields items alone, `Cursor.select` yields the items with a verdict, and
`Cursor.window` those among the items in the window. `Cursor.window_cut` says that a window does not
pull once its last position was delivered: what would come then may be exchanged for anything.
-/

namespace TreeQuery

def passed (scoring : Bool) (verdict : Item → Option Number) (entry : Item × Option Number) :
    Option (Item × Option Number) :=
  (verdict entry.1).map fun score => (entry.1, if scoring then some score else none)

section Select

variable {judge : Judgement} {scoring : Bool} {verdict : Item → Option Number}

theorem Reply.deliveries_select : (r : Reply) → {entries : List (Item × Option Number)} →
    {pos : Nat} → {earlier : List Trace} →
    r.deliveries scoring = entries.map Delivery.ofItem →
    (∀ entry ∈ entries, ∀ p, (judge scoring p entry.1).Gives (verdict entry.1)) →
    (r.select judge pos scoring earlier).deliveries scoring =
    (entries.filterMap (passed scoring verdict)).map Delivery.ofItem
  | .ended _ _, [], _, _, _, _ => rfl
  | .ended _ _, _ :: _, _, _, h, _ => by simp [Reply.deliveries] at h
  | .yielded _ _ _ _, [], _, _, h, _ => by simp [Reply.deliveries] at h
  | .yielded log outcome score (.mk hint pull), (item, score') :: entries, pos, earlier, h, hj => by
    simp only [Reply.deliveries, Cursor.deliveries, List.map_cons, List.cons.injEq, Delivery.ofItem,
      Prod.mk.injEq] at h
    obtain ⟨⟨rfl, rfl⟩, h⟩ := h
    have hv : (judge scoring (pos + 1) item).outcome = .ok (verdict item) :=
      hj (item, _) List.mem_cons_self _
    have ih (earlier : List Trace) :
        ((pull scoring).select judge (pos + 1) scoring earlier).deliveries scoring = _ :=
      Reply.deliveries_select (pull scoring) h fun entry hentry =>
        hj entry (List.mem_cons_of_mem _ hentry)
    simp only [Reply.select, hv, List.filterMap_cons, passed]
    cases hverdict : verdict item with
    | none => simpa using ih _
    | some s =>
      simp only [Reply.deliveries, Cursor.select, Cursor.deliveries, Option.map_some, List.map_cons,
        Delivery.ofItem]
      rw [ih]

theorem Cursor.yields_select {c : Cursor} {entries : List (Item × Option Number)} {pos : Nat}
    (h : c.Yields scoring entries)
    (hj : ∀ entry ∈ entries, ∀ p, (judge scoring p entry.1).Gives (verdict entry.1)) :
    (c.select judge pos).Yields scoring (entries.filterMap (passed scoring verdict)) := by
  obtain ⟨hint, pull⟩ := c
  exact Reply.deliveries_select (pull scoring) h hj

end Select

/-! ### Windows -/

namespace Window

variable {α : Type}

/-- The elements in the window, `pos` of them having come before. -/
def part (w : Window) : Nat → List α → List α
  | _, [] => []
  | pos, a :: as => if w.contains (pos + 1) then a :: w.part (pos + 1) as else w.part (pos + 1) as

theorem part_of_last_le {w : Window} :
    {pos : Nat} → (as : List α) → w.last ≤ pos → w.part pos as = []
  | _, [], _ => rfl
  | pos, a :: as, h => by
    have hout : w.contains (pos + 1) = false := by simp [contains]; omega
    rw [part, hout, if_neg (by simp), part_of_last_le as (by omega)]

theorem mem_of_mem_part {w : Window} {a : α} :
    {pos : Nat} → (as : List α) → a ∈ w.part pos as → a ∈ as
  | _, [], h => by simp [part] at h
  | pos, b :: as, h => by
    rw [part] at h
    split at h
    · rcases List.mem_cons.mp h with rfl | h
      · exact List.mem_cons_self
      · exact List.mem_cons_of_mem _ (mem_of_mem_part as h)
    · exact List.mem_cons_of_mem _ (mem_of_mem_part as h)

end Window

section Window

variable {w : Window} {judge : Judgement}

section Yields

variable {scoring : Bool} {verdict : Item → Option Number}

theorem Reply.deliveries_window : (r : Reply) → {entries : List (Item × Option Number)} →
    {pos : Nat} → {earlier : List Trace} →
    pos < w.last → r.deliveries scoring = entries.map Delivery.ofItem →
    (∀ entry ∈ w.part pos entries, ∀ p, w.contains p = true →
      (judge scoring p entry.1).Gives (verdict entry.1)) →
    (r.window w judge pos scoring earlier).deliveries scoring =
      ((w.part pos entries).filterMap (passed scoring verdict)).map Delivery.ofItem
  | .ended _ _, [], _, _, _, _, _ => rfl
  | .ended _ _, _ :: _, _, _, _, h, _ => by simp [Reply.deliveries] at h
  | .yielded _ _ _ _, [], _, _, _, h, _ => by simp [Reply.deliveries] at h
  | .yielded log outcome score (.mk hint pull), (item, score') :: entries, pos, earlier,
      hpos, h, hj => by
    simp only [Reply.deliveries, Cursor.deliveries, List.map_cons, List.cons.injEq, Delivery.ofItem,
      Prod.mk.injEq] at h
    obtain ⟨⟨rfl, rfl⟩, h⟩ := h
    -- the rest of the window, whether there is one or not
    have ih (earlier logged : List Trace) (hint : SizeHint)
        (hj : ∀ entry ∈ w.part (pos + 1) entries, ∀ p, w.contains p = true →
          (judge scoring p entry.1).Gives (verdict entry.1)) :
        (if pos + 1 < w.last then (pull scoring).window w judge (pos + 1) scoring earlier
          else .ended logged hint).deliveries scoring =
          ((w.part (pos + 1) entries).filterMap (passed scoring verdict)).map Delivery.ofItem := by
      split
      · next hlt => exact Reply.deliveries_window (pull scoring) hlt h hj
      · next hge => rw [Window.part_of_last_le entries (by omega)]; rfl
    rw [Window.part] at hj ⊢
    by_cases hbefore : pos + 1 < w.first
    · have hout : w.contains (pos + 1) = false := by simp [Window.contains]; omega
      rw [hout, if_neg (by simp)] at hj ⊢
      simp only [Reply.window, if_pos hbefore]
      exact ih _ _ _ hj
    · have hin : w.contains (pos + 1) = true := by simp [Window.contains]; omega
      rw [hin, if_pos rfl] at hj ⊢
      have hv : (judge scoring (pos + 1) item).outcome = .ok (verdict item) :=
        hj (item, _) List.mem_cons_self _ hin
      have hj' := fun entry hentry => hj entry (List.mem_cons_of_mem (item, score) hentry)
      simp only [Reply.window, if_neg hbefore, hv, List.filterMap_cons, passed]
      cases hverdict : verdict item with
      | none => exact ih _ _ _ hj'
      | some s =>
        simp only [Reply.deliveries, Cursor.window, Cursor.deliveries, Option.map_some,
          List.map_cons, Delivery.ofItem]
        rw [ih [] _ _ hj']

theorem Cursor.yields_window {c : Cursor} {entries : List (Item × Option Number)} {pos : Nat}
    (h : c.Yields scoring entries)
    (hj : ∀ entry ∈ w.part pos entries, ∀ p, w.contains p = true →
      (judge scoring p entry.1).Gives (verdict entry.1)) :
    (c.window w judge pos).Yields scoring
      ((w.part pos entries).filterMap (passed scoring verdict)) := by
  obtain ⟨hint, pull⟩ := c
  rw [Yields, Cursor.window, Cursor.deliveries]
  split
  · next hlt => exact Reply.deliveries_window (pull scoring) hlt h hj
  · next hge => rw [Window.part_of_last_le entries (by omega)]; rfl

end Yields

/-! ### No pull after a window -/

mutual

/-- The cursor that goes on with `other` once it has delivered `n` items. -/
def Cursor.cut (other : Bool → Reply) : Nat → Cursor → Cursor
  | 0, .mk hint _ => .mk hint other
  | n + 1, .mk hint pull => .mk hint fun scoring => (pull scoring).cut other n

def Reply.cut (other : Bool → Reply) (n : Nat) : Reply → Reply
  | .ended log hint => .ended log hint
  | .yielded log (.error e) score rest => .yielded log (.error e) score (rest.cut other (n + 1))
  | .yielded log (.ok item) score rest => .yielded log (.ok item) score (rest.cut other n)

end

variable {other : Bool → Reply}

mutual

/-- A window never pulls after its last position: what comes then does not matter. -/
theorem Cursor.window_cut_from :
    (c : Cursor) → (pos : Nat) → (c.cut other (w.last - pos)).window w judge pos =
    c.window w judge pos
  | .mk hint pull, pos => by
    by_cases hpos : pos < w.last
    · obtain ⟨n, hn⟩ : ∃ n, w.last - pos = n + 1 := ⟨w.last - pos - 1, by omega⟩
      have ih := fun scoring => Reply.window_cut_from (pull scoring) pos n hn scoring []
      rw [hn, Cursor.cut, Cursor.window, Cursor.window]
      simp only [if_pos hpos, ih]
    · rw [show w.last - pos = 0 by omega]
      simp only [Cursor.cut, Cursor.window, if_neg hpos]

theorem Reply.window_cut_from : (r : Reply) → (pos n : Nat) → w.last - pos = n + 1 →
    (scoring : Bool) → (earlier : List Trace) →
    (r.cut other n).window w judge pos scoring earlier = r.window w judge pos scoring earlier
  | .ended _ _, _, _, _, _, _ => rfl
  | .yielded log (.error e) score rest, pos, n, hn, scoring, earlier => by
    have ih := Cursor.window_cut_from rest pos
    rw [hn] at ih
    simp only [Reply.cut, Reply.window, ih]
  | .yielded log (.ok item) score (.mk hint pull), pos, n, hn, scoring, earlier => by
    have ih := Cursor.window_cut_from (.mk hint pull) (pos + 1)
    rw [show w.last - (pos + 1) = n by omega] at ih
    cases n with
    | zero =>
      have hend : ¬pos + 1 < w.last := by omega
      rw [Cursor.cut] at ih
      simp only [Reply.cut, Cursor.cut, Reply.window, ih, if_neg hend]
    | succ n =>
      have ih' := fun earlier => Reply.window_cut_from (pull scoring) (pos + 1) n
        (by omega) scoring earlier
      rw [Cursor.cut] at ih
      simp only [Reply.cut, Cursor.cut, Reply.window, ih, ih']

end

end Window

end TreeQuery
