import TreeQuery.Proofs.Check.Resolution
/-!
# Checks pull by pull

A streaming check, the check of the whole sequence and the check of constants agree
(`TypeCheck.agree`). Pulled again and again, a streaming check yields what the check of the whole
sequence hands on, and only ends after that. Where the check of the whole sequence fails, the
streaming one yields some of the items before it fails once; `TypeCheck.Stops` tells after which of
them, and why.
-/

namespace TreeQuery

/-! ### Pulling again and again -/

namespace Cursor

variable {scoring : Bool}

def after (scoring : Bool) : Nat → Cursor → Cursor
  | 0, c => c
  | n + 1, c => (c.pull scoring).rest.after scoring n

/-- What the pull after `n` others yields: an item, a failure, or `none` at the end. -/
def nth (scoring : Bool) (n : Nat) (c : Cursor) : Option (Except Failure Item) :=
  match (c.after scoring n).pull scoring with
  | .ended .. => none
  | .yielded _ outcome _ _ => some outcome

theorem nth_finished (n : Nat) (hint : SizeHint) : (finished hint).nth scoring n = none := by
  induction n with
  | zero => rfl
  | succ n ih => exact ih

theorem nth_eq (n : Nat) (c : Cursor) :
    c.nth scoring n = (((c.deliveries scoring)[n]?).map Prod.fst) := by
  induction n generalizing c with
  | zero =>
    obtain ⟨hint, pull⟩ := c
    show (match pull scoring with | .ended .. => none | .yielded _ outcome _ _ => some outcome) = _
    rw [deliveries]
    cases pull scoring <;> rfl
  | succ n ih =>
    obtain ⟨hint, pull⟩ := c
    show (pull scoring).rest.nth scoring n = _
    rw [deliveries]
    cases pull scoring with
    | ended log hint => exact nth_finished n hint
    | yielded log outcome score rest => exact ih rest

/-- Pulled again and again the cursor yields just this, and only ends after it. -/
def Pulls (scoring : Bool) (c : Cursor) (outcomes : List (Except Failure Item)) : Prop :=
  ∀ n, c.nth scoring n = outcomes[n]?

theorem pulls_iff {c : Cursor} {outcomes : List (Except Failure Item)} :
    c.Pulls scoring outcomes ↔ (c.deliveries scoring).map Prod.fst = outcomes := by
  constructor
  · intro h
    refine List.ext_getElem? fun n => ?_
    rw [List.getElem?_map, ← nth_eq, h n]
  · rintro rfl n
    rw [nth_eq, List.getElem?_map]

end Cursor

theorem map_fst_eq_map_ok : {ds : List Delivery} → {items : List Item} →
    (ds.map Prod.fst = items.map .ok ↔ Clean ds ∧ delivered ds = items)
  | [], items => by cases items <;> simp
  | (.error e, score) :: ds, items => by cases items <;> simp
  | (.ok first, score) :: ds, items => by
    cases items with
    | nil => simp
    | cons item items =>
      have ih : ds.map Prod.fst = items.map .ok ↔ Clean ds ∧ delivered ds = items :=
        map_fst_eq_map_ok
      simp only [List.map_cons, List.cons.injEq, Except.ok.injEq, clean_ok, delivered_ok, ih]
      constructor
      · rintro ⟨rfl, hclean, rfl⟩
        exact ⟨hclean, rfl, rfl⟩
      · rintro ⟨hclean, rfl, rfl⟩
        exact ⟨rfl, hclean, rfl⟩

/-! ### Where a check stops -/

variable {t : TypeCheck} {forest : Forest} {scoring : Bool}

/-- Why a check that has handed on `count` items fails before those that are left: the next one is
not of the target, there is no room for it, or there are too few. -/
inductive TypeCheck.Stops (t : TypeCheck) (forest : Forest) (count : Nat) :
    List Item → Failure → Prop
  | refused {item : Item} {items : List Item} {e : Failure} :
      ((conformItem forest t.target t.promote t.location item).locate t.location).Fails e →
        Stops t forest count (item :: items) e
  | full {item item' : Item} {items : List Item} {limit : Nat} :
      (conformItem forest t.target t.promote t.location item).Gives item' →
        t.target.occurrence.max = some limit →
      limit ≤ count → Stops t forest count (item :: items)
        (t.mismatch ("more than " ++ renderItemCount count))
  | short : count < t.target.occurrence.min →
    Stops t forest count [] (t.mismatch (renderItemCount count))

theorem TypeCheck.next_fails {count : Nat} {item : Item} {e : Failure}
    (h : (t.next forest count item).Fails e) (items : List Item) :
    t.Stops forest count (item :: items) e := by
  simp only [next, Logged.fails_bind, Logged.gives_locate] at h
  obtain h | ⟨item', hitem', h⟩ := h
  · exact .refused h
  split at h
  · next limit hlimit =>
    split at h
    · next hfull =>
      obtain rfl := Logged.fails_fail.mp h
      exact .full hitem' hlimit hfull
    · exact absurd h Logged.fails_pure
  · exact absurd h Logged.fails_pure

/-- A check of a sequence that does not fail delivers items that conform, and nothing more or one
failure at last. -/
theorem Reply.check_stops : (r : Reply) → (count : Nat) → Clean (r.deliveries scoring) →
    ¬Clean ((r.check t forest count).deliveries scoring) → ∃ checked e,
      ((r.check t forest count).deliveries scoring).map Prod.fst = checked.map .ok ++ [.error e] ∧
      (((delivered (r.deliveries scoring)).take checked.length).mapM
        (conformItem forest t.target t.promote t.location)).Gives checked ∧
      t.Stops forest (count + checked.length)
        ((delivered (r.deliveries scoring)).drop checked.length) e
  | .ended log hint, count, _, h => by
    simp only [Reply.check, TypeCheck.finish] at h ⊢
    by_cases hshort : count < t.target.occurrence.min
    · rw [if_pos hshort]
      exact ⟨[], _, rfl, rfl, .short hshort⟩
    · rw [if_neg hshort] at h
      exact absurd clean_nil h
  | .yielded log (.error e) score rest, _, hclean, _ => absurd hclean clean_error
  | .yielded log (.ok item) score (.mk hint pull), count, hclean, h => by
    simp only [Reply.check] at h ⊢
    cases hnext : (t.next forest count item).outcome with
    | error e => exact ⟨[], e, rfl, rfl, TypeCheck.next_fails hnext _⟩
    | ok first =>
      simp only [hnext, Reply.deliveries, Cursor.check, Cursor.deliveries, clean_ok] at h hclean ⊢
      obtain ⟨checked, e, hdeliveries, hconform, hstops⟩ :=
        Reply.check_stops (pull scoring) (count + 1) hclean h
      refine ⟨first :: checked, e, by simp [hdeliveries], ?_, ?_⟩
      · simp only [delivered_ok, List.length_cons, List.take_succ_cons, List.mapM_cons,
          Logged.gives_bind, Logged.gives_pure]
        exact ⟨first, (TypeCheck.next_gives hnext).1, checked, hconform, rfl⟩
      · have : count + 1 + checked.length = count + (first :: checked).length := by
          rw [List.length_cons]
          omega
        exact this ▸ hstops

/-- What a check makes of a cursor that does not fail is handed on just if the check of the whole
sequence hands it on. -/
theorem Cursor.check_pulls_iff {c : Cursor} (hclean : Clean (c.deliveries scoring))
    {items : List Item} : (c.check t forest 0).Pulls scoring (items.map .ok) ↔
      (checkSequence forest t.target t.promote t.location (delivered (c.deliveries scoring))).Gives
        items := by
  rw [pulls_iff, map_fst_eq_map_ok]
  constructor
  · rintro ⟨hchecked, rfl⟩
    exact (checkSequence_of_clean hchecked).2
  · exact check_delivers hclean

/-- The three checks agree. For every cursor over a sequence that does not fail, pulling its check
again and again yields what the check of the whole sequence hands on, if it hands on anything; for a
sequence of constants that is what their check early hands on. If the check of the whole sequence
fails, pulling yields the first items as items of the target, then one failure, and then only the
end. -/
theorem TypeCheck.agree (t : TypeCheck) (forest : Forest) {c : Cursor}
    {entries : List (Item × Option Number)} (h : c.Yields scoring entries) :
    let items := entries.map Prod.fst
    let whole := checkSequence forest t.target t.promote t.location items
    (∀ out, (c.check t forest 0).Pulls scoring (out.map .ok) ↔ whole.Gives out) ∧
    (∀ values : List Atomic, items = values.map .atomic → ∀ out, whole.Gives out ↔
      ∃ constants, checkAtomics values t.target t.promote = .ok constants ∧
        constants.map .atomic = out) ∧
    (∀ failure, whole.Fails failure → ∃ checked e,
      (c.check t forest 0).Pulls scoring (checked.map .ok ++ [.error e]) ∧
      ((items.take checked.length).mapM (conformItem forest t.target t.promote t.location)).Gives
        checked ∧
      t.Stops forest checked.length (items.drop checked.length) e) := by
  intro items whole
  have hclean : Clean (c.deliveries scoring) := by
    rw [h]
    exact clean_map_ofItem entries
  have hitems : delivered (c.deliveries scoring) = items := by
    rw [h]
    exact delivered_map_ofItem entries
  have hwhole (out : List Item) : (c.check t forest 0).Pulls scoring (out.map .ok) ↔
      whole.Gives out := by
    rw [Cursor.check_pulls_iff hclean, hitems]
  refine ⟨hwhole, ?_, fun failure hfails => ?_⟩
  · intro values hvalues out
    show (checkSequence forest t.target t.promote t.location items).Gives out ↔ _
    rw [hvalues]
    exact checkSequence_atomic
  · -- had the streaming check delivered everything, the check of the whole sequence would have handed it on
    have hstops : ¬Clean ((c.check t forest 0).deliveries scoring) := by
      intro hchecked
      have hgives := (hwhole _).mp (Cursor.pulls_iff.mpr (map_fst_eq_map_ok.mpr ⟨hchecked, rfl⟩))
      cases hgives.symm.trans hfails
    obtain ⟨hint, pull⟩ := c
    obtain ⟨checked, e, hpulls, hconform, hreason⟩ :=
      Reply.check_stops (pull scoring) 0 hclean hstops
    have hdelivered : delivered ((pull scoring).deliveries scoring) = items := hitems
    rw [hdelivered] at hconform hreason
    rw [Nat.zero_add] at hreason
    exact ⟨checked, e, Cursor.pulls_iff.mpr hpulls, hconform, hreason⟩

/-- Two untyped values where one integer is asked for: the first is cast, and there is no room for
the second. One of them alone passes, early and late. -/
theorem TypeCheck.agree_untyped :
    let t : TypeCheck := ⟨.one (.atomic .integer), true, none⟩
    let one : Item := .atomic (.untyped "1")
    let entries : List (Item × Option Number) := [(one, none), (one, none)]
    (Cursor.ofScored entries).Yields false entries ∧
    (((Cursor.ofScored [(one, none)]).check t (.empty false) 0).Pulls false
      [.ok (.atomic (.integer 1))]) ∧
    ∃ checked e, (((Cursor.ofScored entries).check t (.empty false) 0).Pulls false
      (checked.map .ok ++ [.error e])) ∧
      ([one, one].take checked.length |>.mapM
        (conformItem (.empty false) t.target t.promote t.location)).Gives checked ∧
      t.Stops (.empty false) checked.length ([one, one].drop checked.length) e := by
  intro t one entries
  have single : (Cursor.ofScored [(one, none)]).Yields false [(one, none)] :=
    Cursor.yields_ofScored _
  have double : (Cursor.ofScored entries).Yields false entries := Cursor.yields_ofScored entries
  have passes := (t.agree (.empty false) single).1 [.atomic (.integer 1)]
  exact ⟨double, passes.mpr rfl, (t.agree (.empty false) double).2.2 _ rfl⟩

end TreeQuery
