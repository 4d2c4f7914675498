import TreeQuery.Cursor.Chain
import TreeQuery.Cursor.Check
import TreeQuery.Proofs.Cursor.Filter
/-!
# The items that are delivered among failures

A failure does not end a cursor. `delivered` are the items alone, and deliveries are `Clean` if
nothing fails. For each way to build a cursor from others the lemmas say which items it delivers,
whatever fails, and what is delivered in full if nothing does.
-/

namespace TreeQuery

def delivered : List Delivery → List Item
  | [] => []
  | (.ok item, _) :: ds => item :: delivered ds
  | (.error _, _) :: ds => delivered ds

def Clean : List Delivery → Prop
  | [] => True
  | (.ok _, _) :: ds => Clean ds
  | (.error _, _) :: _ => False

@[simp] theorem delivered_nil : delivered [] = [] := rfl

@[simp] theorem delivered_ok {item : Item} {score : Option Number} {ds : List Delivery} :
    delivered ((.ok item, score) :: ds) = item :: delivered ds := rfl

@[simp] theorem delivered_error {e : Failure} {score : Option Number} {ds : List Delivery} :
    delivered ((.error e, score) :: ds) = delivered ds := rfl

@[simp] theorem clean_nil : Clean [] := trivial

@[simp] theorem clean_ok {item : Item} {score : Option Number} {ds : List Delivery} :
    Clean ((.ok item, score) :: ds) ↔ Clean ds := Iff.rfl

@[simp] theorem clean_error {e : Failure} {score : Option Number} {ds : List Delivery} :
    ¬Clean ((.error e, score) :: ds) := id

@[simp] theorem delivered_append :
    (ds es : List Delivery) → delivered (ds ++ es) = delivered ds ++ delivered es
  | [], _ => rfl
  | (.ok _, _) :: ds, es => by simp [delivered_append ds]
  | (.error _, _) :: ds, es => by simp [delivered_append ds]

@[simp] theorem clean_append : (ds es : List Delivery) → (Clean (ds ++ es) ↔ Clean ds ∧ Clean es)
  | [], _ => by simp
  | (.ok _, _) :: ds, es => by simp [clean_append ds]
  | (.error _, _) :: ds, es => by simp

@[simp] theorem delivered_map_ofItem : (entries : List (Item × Option Number)) →
    delivered (entries.map Delivery.ofItem) = entries.map Prod.fst
  | [] => rfl
  | entry :: entries => by simp [Delivery.ofItem, delivered_map_ofItem entries]

@[simp] theorem clean_map_ofItem :
    (entries : List (Item × Option Number)) → Clean (entries.map Delivery.ofItem)
  | [] => trivial
  | entry :: entries => by simp [Delivery.ofItem, clean_map_ofItem entries]

namespace Cursor

variable {c : Cursor} {scoring : Bool}

/-- What draining gives is all that is delivered, and no more than memory has room for. -/
theorem drain_delivered {items : List Item} (h : (c.drain scoring).Gives items) :
    delivered (c.deliveries scoring) = items ∧ Clean (c.deliveries scoring) ∧
    items.length ≤ memoryLimit := by
  obtain ⟨entries, hentries, hlimit, rfl⟩ := drain_iff.mp h
  rw [Yields] at hentries
  simp [hentries, hlimit]

theorem drainScored_delivered {items : List (Item × Number)}
    (h : (c.drainScored scoring).Gives items) :
    delivered (c.deliveries scoring) = items.map Prod.fst ∧ Clean (c.deliveries scoring) := by
  obtain ⟨entries, hentries, -, rfl⟩ := drainScored_iff.mp h
  rw [Yields] at hentries
  simp [hentries, Function.comp_def]

@[simp] theorem delivered_ofList (items : List Item) :
    delivered ((ofList items).deliveries scoring) = items := by
  have h : (ofList items).deliveries scoring = _ := yields_ofList items
  rw [h, delivered_map_ofItem, List.map_map]
  exact List.map_id items

@[simp] theorem clean_ofList (items : List Item) : Clean ((ofList items).deliveries scoring) := by
  have h : (ofList items).deliveries scoring = _ := yields_ofList items
  exact h ▸ clean_map_ofItem _

@[simp] theorem delivered_ofScored (items : List (Item × Option Number)) :
    delivered ((ofScored items).deliveries scoring) = items.map Prod.fst := by
  have h : (ofScored items).deliveries scoring = _ := yields_ofScored items
  rw [h, delivered_map_ofItem]

@[simp] theorem clean_ofScored (items : List (Item × Option Number)) :
    Clean ((ofScored items).deliveries scoring) := by
  have h : (ofScored items).deliveries scoring = _ := yields_ofScored items
  exact h ▸ clean_map_ofItem _

end Cursor

/-! ### Chains -/

theorem Reply.deliveries_after {scoring : Bool} (log : List Trace) (r : Reply) :
    (r.after log).deliveries scoring = r.deliveries scoring := by
  cases r <;> rfl

theorem Reply.deliveries_append {scoring : Bool} (next : Cursor) : (r : Reply) →
    (r.append next scoring).deliveries scoring = r.deliveries scoring ++ next.deliveries scoring
  | .ended log hint => by rw [Reply.append, Reply.deliveries_after, Cursor.deliveries_eq next]; rfl
  | .yielded log outcome score (.mk hint pull) => by
    simp only [Reply.append, Reply.deliveries, Cursor.append, Cursor.deliveries, List.cons_append,
      Reply.deliveries_append next (pull scoring)]

def Link.block (link : Link) (scoring : Bool) (pos : Nat) (item : Item) : List Delivery :=
  match (link.start scoring pos item).outcome with
  | .error e => [(.error e, none)]
  | .ok c => c.deliveries scoring

/-- What a chain delivers, `pos` items having been numbered before. -/
def Link.deliveries (link : Link) (scoring : Bool) : Nat → List Delivery → List Delivery
  | _, [] => []
  | pos, (.error e, _) :: ds => (.error e, none) :: link.deliveries scoring pos ds
  | pos, (.ok item, _) :: ds =>
    match link.accept item with
    | .error e => (.error e, none) :: link.deliveries scoring pos ds
    | .ok _ => link.block scoring (pos + 1) item ++ link.deliveries scoring (pos + 1) ds

theorem Reply.deliveries_chain {link : Link} {scoring : Bool} : (r : Reply) → (pos : Nat) →
    (r.chain link pos scoring).deliveries scoring = link.deliveries scoring pos
      (r.deliveries scoring)
  | .ended .., _ => rfl
  | .yielded log (.error e) score (.mk hint pull), pos => by
    simp only [Reply.chain, Reply.deliveries, Cursor.chain, Cursor.deliveries, Link.deliveries,
      Reply.deliveries_chain (pull scoring)]
  | .yielded log (.ok item) score (.mk hint pull), pos => by
    have ih (pos : Nat) : ((pull scoring).chain link pos scoring).deliveries scoring = _ :=
      Reply.deliveries_chain (pull scoring) pos
    simp only [Reply.chain, Reply.deliveries, Cursor.deliveries, Link.deliveries]
    cases haccept : link.accept item with
    | error e => simp only [Reply.deliveries, Cursor.chain, Cursor.deliveries, ih]
    | ok u =>
      simp only [Link.block]
      cases hstart : (link.start scoring (pos + 1) item).outcome with
      | error e =>
        simp only [Reply.deliveries, Cursor.chain, Cursor.deliveries, ih, List.cons_append,
          List.nil_append]
      | ok current =>
        simp only [Reply.deliveries_after, Reply.deliveries_append, Cursor.chain, Cursor.deliveries,
          ih, Cursor.deliveries_eq current]

theorem Cursor.deliveries_chain {link : Link} {scoring : Bool} (c : Cursor) (pos : Nat) :
    (c.chain link pos).deliveries scoring = link.deliveries scoring pos (c.deliveries scoring) := by
  obtain ⟨hint, pull⟩ := c
  exact Reply.deliveries_chain (pull scoring) pos

theorem Link.clean_deliveries {link : Link} {scoring : Bool} : (ds : List Delivery) → (pos : Nat) →
    Clean (link.deliveries scoring pos ds) → Clean ds
  | [], _, _ => trivial
  | (.error _, _) :: _, _, h => by simp [Link.deliveries] at h
  | (.ok item, _) :: ds, pos, h => by
    rw [Link.deliveries] at h
    split at h
    · simp at h
    · rw [clean_append] at h
      exact Link.clean_deliveries ds (pos + 1) h.2

/-- Where nothing fails, all items are admitted, and a chain delivers all that their cursors
deliver. -/
theorem Link.clean_block {link : Link} {scoring : Bool} : {ds : List Delivery} → {pos : Nat} →
    Clean (link.deliveries scoring pos ds) →
    ∀ item ∈ delivered ds, ∃ p d, (link.start scoring p item).Gives d ∧
      Clean (d.deliveries scoring) ∧
      ∀ found ∈ delivered (d.deliveries scoring), found ∈ delivered (link.deliveries scoring pos ds)
  | [], _, _, item, hitem => by simp at hitem
  | (.error _, _) :: _, _, h, _, _ => by simp [Link.deliveries] at h
  | (.ok first, _) :: ds, pos, h, item, hitem => by
    rw [Link.deliveries] at h ⊢
    split at h
    · simp at h
    · rw [clean_append] at h
      rw [delivered_append]
      rcases List.mem_cons.mp hitem with rfl | hitem
      · have hblock := h.1
        unfold Link.block at hblock ⊢
        split at hblock
        · simp at hblock
        · next d hd =>
            exact ⟨pos + 1, d, hd, hblock, fun found hfound => List.mem_append_left _ hfound⟩
      · obtain ⟨p, d, hd, hclean, hfound⟩ := Link.clean_block h.2 item hitem
        exact ⟨p, d, hd, hclean, fun found h => List.mem_append_right _ (hfound found h)⟩

/-! ### Type checks -/

/-- What a check that has handed on `count` items makes of deliveries. -/
structure Checked (t : TypeCheck) (forest : Forest) (count : Nat) (ds out : List Delivery) :
    Prop where
  item : ∀ item ∈ delivered out, ∃ item' ∈ delivered ds,
    (conformItem forest t.target t.promote t.location item').Gives item
  length_le : (delivered out).length ≤ (delivered ds).length
  le_max : ∀ limit, t.target.occurrence.max = some limit → count ≤ limit →
    count + (delivered out).length ≤ limit
  clean : Clean out → Clean ds ∧ (delivered out).length = (delivered ds).length ∧
    t.target.occurrence.min ≤ count + (delivered out).length

section Check

variable {t : TypeCheck} {forest : Forest} {scoring : Bool}

theorem TypeCheck.next_gives {count : Nat} {item item' : Item}
    (h : (t.next forest count item).Gives item') :
    (conformItem forest t.target t.promote t.location item).Gives item' ∧
      ∀ limit, t.target.occurrence.max = some limit → count < limit := by
  simp only [next, Logged.gives_bind, Logged.gives_locate] at h
  obtain ⟨checked, hchecked, h⟩ := h
  split at h
  · next limit hlimit =>
    simp only [Logged.gives_ite, Logged.gives_fail, Logged.gives_pure, and_false, false_or] at h
    obtain ⟨hroom, rfl⟩ := h
    refine ⟨hchecked, fun limit' hlimit' => ?_⟩
    obtain rfl : limit = limit' := Option.some.inj (hlimit.symm.trans hlimit')
    omega
  · next hnone =>
    obtain rfl := Logged.gives_pure.mp h
    exact ⟨hchecked, fun limit hlimit => by simp [hnone] at hlimit⟩

theorem Checked.failed {count : Nat} {ds : List Delivery} {e : Failure} :
    Checked t forest count ds [(.error e, none)] where
  item := by simp
  length_le := by simp
  le_max limit _ h := by simpa using h
  clean h := absurd h clean_error

theorem Reply.checked : (r : Reply) → (count : Nat) →
    Checked t forest count (r.deliveries scoring) ((r.check t forest count).deliveries scoring)
  | .ended log hint, count => by
    simp only [Reply.check, TypeCheck.finish]
    by_cases hfew : count < t.target.occurrence.min
    · rw [if_pos hfew]
      exact .failed
    · rw [if_neg hfew]
      exact ⟨by simp [Reply.deliveries], by simp [Reply.deliveries], fun limit _ h => by simpa [Reply.deliveries] using h,
        fun _ => ⟨trivial, rfl, Nat.le_of_not_lt hfew⟩⟩
  | .yielded log (.error e) score rest, count => .failed
  | .yielded log (.ok item) score (.mk hint pull), count => by
    simp only [Reply.check]
    cases hnext : (t.next forest count item).outcome with
    | error e => exact .failed
    | ok item' =>
      obtain ⟨hconform, hroom⟩ := TypeCheck.next_gives hnext
      have ih := Reply.checked (pull scoring) (count + 1)
      simp only [Reply.deliveries, Cursor.check, Cursor.deliveries]
      refine ⟨?_, ?_, ?_, ?_⟩
      · simp only [delivered_ok, List.mem_cons, forall_eq_or_imp, exists_eq_or_imp]
        exact ⟨.inl hconform, fun item h => .inr (ih.item item h)⟩
      · simp only [delivered_ok, List.length_cons]
        have := ih.length_le
        omega
      · intro limit hlimit _
        have := ih.le_max limit hlimit (hroom limit hlimit)
        simp only [delivered_ok, List.length_cons]
        omega
      · intro hclean
        obtain ⟨hin, hlength, hmin⟩ := ih.clean hclean
        simp only [delivered_ok, List.length_cons, clean_ok]
        exact ⟨hin, by omega, by omega⟩

theorem Cursor.checked (c : Cursor) (count : Nat) :
    Checked t forest count (c.deliveries scoring)
      ((c.check t forest count).deliveries scoring) := by
  obtain ⟨hint, pull⟩ := c
  exact Reply.checked (pull scoring) count

end Check

/-! ### Filters -/

section Filter

variable {judge : Judgement} {scoring : Bool}

theorem Reply.delivered_select : (r : Reply) → (pos : Nat) → (earlier : List Trace) →
    (delivered ((r.select judge pos scoring earlier).deliveries scoring)).Sublist
      (delivered (r.deliveries scoring))
  | .ended .., _, _ => .slnil
  | .yielded log (.error e) score (.mk hint pull), pos, earlier => by
    simpa only [Reply.select, Reply.deliveries, Cursor.select, Cursor.deliveries, delivered_error]
      using
      Reply.delivered_select (pull scoring) pos []
  | .yielded log (.ok item) score (.mk hint pull), pos, earlier => by
    have ih := Reply.delivered_select (pull scoring) (pos + 1)
    simp only [Reply.select, Reply.deliveries, Cursor.deliveries, delivered_ok]
    cases (judge scoring (pos + 1) item).outcome with
    | error e =>
      simpa only [Reply.deliveries, Cursor.select, Cursor.deliveries, delivered_error]
        using (ih []).cons item
    | ok verdict =>
      cases verdict with
      | none => exact (ih _).cons item
      | some score =>
        simpa only [Reply.deliveries, Cursor.select, Cursor.deliveries, delivered_ok]
          using (ih []).cons_cons item

/-- What a judgement makes of deliveries: the items that pass, and all of them if nothing fails. -/
structure Selected (judge : Judgement) (scoring : Bool) (ds out : List Delivery) : Prop where
  passed : ∀ item ∈ delivered out, item ∈ delivered ds ∧
    ∃ p score, (judge scoring p item).Gives (some score)
  judged : Clean out → Clean ds ∧ ∀ item ∈ delivered ds, ∃ p verdict,
    (judge scoring p item).Gives verdict ∧ (verdict.isSome → item ∈ delivered out)

theorem Reply.selected : (r : Reply) → (pos : Nat) → (earlier : List Trace) →
    Selected judge scoring (r.deliveries scoring)
      ((r.select judge pos scoring earlier).deliveries scoring)
  | .ended .., _, _ =>
    ⟨by simp [Reply.select, Reply.deliveries], fun _ => ⟨trivial, by simp [Reply.deliveries]⟩⟩
  | .yielded log (.error e) score (.mk hint pull), pos, earlier => by
    have ih := Reply.selected (pull scoring) pos []
    simp only [Reply.select, Reply.deliveries, Cursor.select, Cursor.deliveries]
    exact ⟨ih.passed, fun h => absurd h clean_error⟩
  | .yielded log (.ok item) score (.mk hint pull), pos, earlier => by
    have ih := Reply.selected (pull scoring) (pos + 1)
    simp only [Reply.select, Reply.deliveries, Cursor.deliveries]
    cases hverdict : (judge scoring (pos + 1) item).outcome with
    | error e =>
      refine ⟨fun item h => ?_, fun h => absurd h clean_error⟩
      obtain ⟨hmem, hpassed⟩ := (ih []).passed item h
      exact ⟨List.mem_cons_of_mem _ hmem, hpassed⟩
    | ok verdict =>
      cases verdict with
      | none =>
        refine ⟨fun item h => ?_, fun h => ?_⟩
        · obtain ⟨hmem, hpassed⟩ := (ih _).passed item h
          exact ⟨List.mem_cons_of_mem _ hmem, hpassed⟩
        · obtain ⟨hclean, hjudged⟩ := (ih _).judged h
          exact ⟨hclean, List.forall_mem_cons.mpr ⟨⟨_, none, hverdict, by simp⟩, hjudged⟩⟩
      | some s =>
        have ih := ih []
        refine ⟨List.forall_mem_cons.mpr
          ⟨⟨List.mem_cons_self, _, s, hverdict⟩, fun item h => ?_⟩, fun h => ?_⟩
        · obtain ⟨hmem, hpassed⟩ := ih.passed item h
          exact ⟨List.mem_cons_of_mem _ hmem, hpassed⟩
        · obtain ⟨hclean, hjudged⟩ := ih.judged h
          refine ⟨hclean, List.forall_mem_cons.mpr
            ⟨⟨_, some s, hverdict, fun _ => List.mem_cons_self⟩, fun item hitem => ?_⟩⟩
          obtain ⟨p, verdict, hv, hmem⟩ := hjudged item hitem
          exact ⟨p, verdict, hv, fun hsome => List.mem_cons_of_mem _ (hmem hsome)⟩

theorem Cursor.selected (c : Cursor) (pos : Nat) :
    Selected judge scoring (c.deliveries scoring) ((c.select judge pos).deliveries scoring) := by
  obtain ⟨hint, pull⟩ := c
  exact Reply.selected (pull scoring) pos []

theorem Cursor.delivered_select (c : Cursor) (pos : Nat) :
    (delivered ((c.select judge pos).deliveries scoring)).Sublist
      (delivered (c.deliveries scoring)) := by
  obtain ⟨hint, pull⟩ := c
  exact Reply.delivered_select (pull scoring) pos []

theorem Window.length_part (w : Window) : {α : Type} → (pos : Nat) → (as : List α) →
    (w.part pos as).length = min (pos + as.length) w.last - max pos (w.first - 1)
  | _, pos, [] => by
    rw [Window.part, List.length_nil]
    omega
  | _, pos, a :: as => by
    have ih := w.length_part (pos + 1) as
    have := w.one_le_first
    by_cases hin : w.contains (pos + 1) = true
    · rw [Window.part, if_pos hin, List.length_cons, List.length_cons, ih]
      simp only [Window.contains, decide_eq_true_eq] at hin
      omega
    · rw [Window.part, if_neg hin, List.length_cons, ih]
      simp only [Window.contains, decide_eq_true_eq] at hin
      omega

theorem Window.part_sublist (w : Window) {α : Type} :
    (pos : Nat) → (as : List α) → (w.part pos as).Sublist as
  | _, [] => .slnil
  | pos, a :: as => by
    rw [Window.part]
    split
    · exact (w.part_sublist (pos + 1) as).cons_cons a
    · exact (w.part_sublist (pos + 1) as).cons a

/-- What a window that has seen `pos` items makes of deliveries: a part of the items in the window,
and all of them if the judgement passes all in the window and nothing fails. -/
structure Windowed (w : Window) (judge : Judgement) (pos : Nat) (ds out : List Delivery) :
    Prop where
  sublist : (delivered out).Sublist (w.part pos (delivered ds))
  clean : (∀ scoring p item verdict, w.contains p = true → (judge scoring p item).Gives verdict →
    verdict.isSome) → Clean out →
    delivered out = w.part pos (delivered ds) ∧ (Clean ds ∨ w.last ≤ pos + (delivered ds).length)

theorem Windowed.passed {w : Window} {pos : Nat} {ds : List Delivery} (h : w.last ≤ pos) :
    Windowed w judge pos ds [] where
  sublist := List.nil_sublist _
  clean _ _ := ⟨(Window.part_of_last_le _ h).symm, .inr (by omega)⟩

theorem Reply.windowed {w : Window} :
    (r : Reply) → (pos : Nat) → pos < w.last → (earlier : List Trace) →
    Windowed w judge pos (r.deliveries scoring)
      ((r.window w judge pos scoring earlier).deliveries scoring)
  | .ended .., _, _, _ => ⟨.slnil, fun _ _ => ⟨rfl, .inl trivial⟩⟩
  | .yielded log (.error e) score (.mk hint pull), pos, hpos, earlier => by
    have ih := Reply.windowed (pull scoring) pos hpos []
    simp only [Reply.window, Reply.deliveries, Cursor.window, Cursor.deliveries, if_pos hpos]
    exact ⟨ih.sublist, fun _ h => absurd h clean_error⟩
  | .yielded log (.ok item) score (.mk hint pull), pos, hpos, earlier => by
    -- the rest of the window, whether there is one or not
    have ih (earlier logged : List Trace) (hint : SizeHint) : Windowed w judge (pos + 1)
      ((pull scoring).deliveries scoring)
        ((if pos + 1 < w.last then (pull scoring).window w judge (pos + 1) scoring earlier
          else .ended logged hint).deliveries scoring) := by
      split
      · next hlt => exact Reply.windowed (pull scoring) (pos + 1) hlt earlier
      · next hge => exact .passed (by omega)
    have later {ds : List Delivery} (h : Clean ds ∨ w.last ≤ pos + 1 + (delivered ds).length) :
        Clean ((.ok item, score) :: ds) ∨
          w.last ≤ pos + (delivered ((.ok item, score) :: ds)).length :=
      h.imp id fun h => by simp only [delivered_ok, List.length_cons]; omega
    simp only [Reply.deliveries, Cursor.deliveries]
    -- an item before the window is not judged
    by_cases hbefore : pos + 1 < w.first
    · have hout : w.contains (pos + 1) = false := by simp [Window.contains]; omega
      have hpart (items : List Item) : w.part pos (item :: items) = w.part (pos + 1) items := by
        rw [Window.part, hout, if_neg (by simp)]
      have ih := ih (log.reverse ++ earlier) (log.reverse ++ earlier).reverse
        (hint.capped (some w.width))
      simp only [Reply.window, if_pos hbefore]
      refine ⟨?_, fun hjudge hclean => ?_⟩
      · rw [delivered_ok, hpart]
        exact ih.sublist
      · rw [delivered_ok, hpart]
        obtain ⟨hitems, hds⟩ := ih.clean hjudge hclean
        exact ⟨hitems, later hds⟩
    · have hin : w.contains (pos + 1) = true := by simp [Window.contains]; omega
      have hpart (items : List Item) : w.part pos (item :: items) = item ::
          w.part (pos + 1) items := by
        rw [Window.part, if_pos hin]
      simp only [Reply.window, if_neg hbefore]
      cases hverdict : (judge scoring (pos + 1) item).outcome with
      | error e =>
        refine ⟨?_, fun _ h => absurd h clean_error⟩
        rw [delivered_ok, hpart]
        exact (ih [] [] (hint.capped (some w.width))).sublist.cons item
      | ok verdict =>
        cases verdict with
        | none =>
          refine ⟨?_, fun hjudge _ => absurd (hjudge _ _ _ _ hin hverdict) (by simp)⟩
          rw [delivered_ok, hpart]
          exact (ih _ _ _).sublist.cons item
        | some s =>
          have ih := ih [] [] (hint.capped (some w.width))
          refine ⟨?_, fun hjudge hclean => ?_⟩
          · rw [delivered_ok, hpart]
            exact ih.sublist.cons_cons item
          · rw [delivered_ok, hpart]
            obtain ⟨hitems, hds⟩ := ih.clean hjudge hclean
            exact ⟨congrArg (item :: ·) hitems, later hds⟩

theorem Cursor.windowed {w : Window} (c : Cursor) (pos : Nat) :
    Windowed w judge pos (c.deliveries scoring) ((c.window w judge pos).deliveries scoring) := by
  obtain ⟨hint, pull⟩ := c
  rw [Cursor.window, Cursor.deliveries, Cursor.deliveries]
  split
  · next hlt => exact Reply.windowed (pull scoring) pos hlt []
  · next hge => exact .passed (by omega)

end Filter

end TreeQuery
