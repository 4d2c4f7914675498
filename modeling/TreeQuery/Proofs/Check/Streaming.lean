import TreeQuery.Proofs.Cursor.Items
import TreeQuery.Proofs.Eval.Focus
import TreeQuery.Proofs.Typing.Conformance
import TreeQuery.Proofs.Typing.Describes
/-!
# Checks of whole values and checks that stream

A streaming check comes to its end without a failure if and only if its input does and the whole
sequence passes (`Cursor.check_drains`), though it notices a wrong length at another moment. So the
whole value of an expression is what its cursor delivers, also where checks are nested
(`Expr.value_iff_drained`).
-/

namespace TreeQuery

variable {call : Caller} {env : Env}

/-! ### Streaming checks -/

section Check

variable {t : TypeCheck} {forest : Forest} {scoring : Bool}

theorem Reply.check_delivers : (r : Reply) → {items : List Item} → {count : Nat} →
    Clean (r.deliveries scoring) →
    ((delivered (r.deliveries scoring)).mapM
      (conformItem forest t.target t.promote t.location)).Gives items →
    t.target.occurrence.admits (count + items.length) = true →
    Clean ((r.check t forest count).deliveries scoring) ∧
    delivered ((r.check t forest count).deliveries scoring) = items
  | .ended log hint, items, count, _, h, hadmits => by
    obtain rfl : [] = items := Logged.gives_pure.mp h
    have hmin : ¬count < t.target.occurrence.min := by
      have := (Occurrence.admits_iff.mp hadmits).1
      simp only [List.length_nil, Nat.add_zero] at this
      omega
    simp only [Reply.check, TypeCheck.finish, if_neg hmin]
    exact ⟨trivial, rfl⟩
  | .yielded log (.error e) score rest, _, _, h, _, _ => absurd h clean_error
  | .yielded log (.ok item) score (.mk hint pull), items, count, hclean, h, hadmits => by
    simp only [Reply.deliveries, Cursor.deliveries, delivered_ok, clean_ok, List.mapM_cons,
      Logged.gives_bind, Logged.gives_pure] at h hclean
    obtain ⟨first, hfirst, rest, hrest, rfl⟩ := h
    have hnext : (t.next forest count item).outcome = .ok first := by
      show (t.next forest count item).Gives first
      simp only [TypeCheck.next, Logged.gives_bind, Logged.gives_locate]
      refine ⟨first, hfirst, ?_⟩
      split
      · next limit hlimit =>
        have := (Occurrence.admits_iff.mp hadmits).2 limit hlimit
        simp only [List.length_cons] at this
        simp only [Logged.gives_ite, Logged.gives_pure, and_true]
        exact .inr (by omega)
      · exact Logged.gives_pure.mpr rfl
    have hadmits : t.target.occurrence.admits (count + 1 + rest.length) = true := by
      rwa [Nat.add_assoc, Nat.add_comm 1]
    obtain ⟨hclean, hdelivered⟩ := Reply.check_delivers (pull scoring) hclean hrest hadmits
    simp only [Reply.check, hnext, Reply.deliveries, Cursor.check, Cursor.deliveries, delivered_ok,
      clean_ok, hdelivered]
    exact ⟨hclean, trivial⟩

/-- A check of a whole sequence hands on what the streaming check delivers. -/
theorem Cursor.check_delivers {c : Cursor} {items : List Item}
    (hclean : Clean (c.deliveries scoring))
    (h : (checkSequence forest t.target t.promote t.location
      (delivered (c.deliveries scoring))).Gives items) :
    Clean ((c.check t forest 0).deliveries scoring) ∧
    delivered ((c.check t forest 0).deliveries scoring) = items := by
  obtain ⟨hint, pull⟩ := c
  obtain ⟨hlength, hadmits, -⟩ := checkSequence_gives h
  simp only [checkSequence, Logged.gives_ite, Logged.gives_fail, and_false, or_false] at h
  refine Reply.check_delivers (pull scoring) hclean h.2 ?_
  rwa [Nat.zero_add]

theorem Reply.check_conforms : (r : Reply) → {count : Nat} →
    Clean ((r.check t forest count).deliveries scoring) →
    ((delivered (r.deliveries scoring)).mapM
      (conformItem forest t.target t.promote t.location)).Gives (delivered
      ((r.check t forest count).deliveries scoring))
  | .ended log hint, count, h => by
    simp only [Reply.check] at h ⊢
    split at h
    · exact absurd h clean_error
    · exact Logged.gives_pure.mpr rfl
  | .yielded log (.error e) score rest, count, h => absurd h clean_error
  | .yielded log (.ok item) score (.mk hint pull), count, h => by
    cases hnext : (t.next forest count item).outcome with
    | error e =>
      simp only [Reply.check, hnext] at h
      exact absurd h clean_error
    | ok item' =>
      simp only [Reply.check, hnext, Reply.deliveries, Cursor.check, Cursor.deliveries, clean_ok,
        delivered_ok, List.mapM_cons, Logged.gives_bind, Logged.gives_pure] at h ⊢
      exact ⟨item', (TypeCheck.next_gives hnext).1, _, Reply.check_conforms (pull scoring) h, rfl⟩

theorem Cursor.checkSequence_of_clean {c : Cursor}
    (h : Clean ((c.check t forest 0).deliveries scoring)) :
    Clean (c.deliveries scoring) ∧
    (checkSequence forest t.target t.promote t.location (delivered (c.deliveries scoring))).Gives
      (delivered ((c.check t forest 0).deliveries scoring)) := by
  have hchecked : Checked t forest 0 (c.deliveries scoring)
    ((c.check t forest 0).deliveries scoring) := c.checked 0
  obtain ⟨hclean, hlength, hmin⟩ := hchecked.clean h
  refine ⟨hclean, ?_⟩
  have hadmits : t.target.occurrence.admits (delivered (c.deliveries scoring)).length = true := by
    refine Occurrence.admits_iff.mpr ⟨by omega, fun limit hlimit => ?_⟩
    have := hchecked.le_max limit hlimit (Nat.zero_le _)
    omega
  rw [checkSequence, if_pos hadmits]
  obtain ⟨hint, pull⟩ := c
  exact Reply.check_conforms (pull scoring) h

end Check

namespace Cursor

variable {c : Cursor} {scoring : Bool}

theorem exists_yields_of_clean : {ds : List Delivery} → Clean ds →
    ∃ entries : List (Item × Option Number), ds = entries.map Delivery.ofItem ∧
    entries.map Prod.fst = delivered ds
  | [], _ => ⟨[], rfl, rfl⟩
  | (.error _, _) :: _, h => absurd h clean_error
  | (.ok item, score) :: ds, h => by
    obtain ⟨entries, rfl, hitems⟩ := exists_yields_of_clean (show Clean ds from h)
    exact ⟨(item, score) :: entries, rfl, by simp⟩

theorem drain_iff_clean {items : List Item} : (c.drain scoring).Gives items ↔
    Clean (c.deliveries scoring) ∧ delivered (c.deliveries scoring) = items ∧
    items.length ≤ memoryLimit := by
  constructor
  · intro h
    obtain ⟨hdelivered, hclean, hlimit⟩ := drain_delivered h
    exact ⟨hclean, hdelivered, hlimit⟩
  · rintro ⟨hclean, rfl, hlimit⟩
    obtain ⟨entries, hentries, hitems⟩ := exists_yields_of_clean hclean
    rw [← hitems] at hlimit ⊢
    exact drain_iff.mpr ⟨entries, hentries, by simpa using hlimit, rfl⟩

theorem check_drains {target : SeqType} {promote : Bool} {l : Option Location} {forest : Forest}
    {items : List Item} : ((c.check ⟨target, promote, l⟩ forest 0).drain scoring).Gives items ↔
      ∃ source, (c.drain scoring).Gives source ∧
      (checkSequence forest target promote l source).Gives items := by
  simp only [drain_iff_clean]
  constructor
  · rintro ⟨hclean, rfl, hlimit⟩
    obtain ⟨hsource, hpasses⟩ := checkSequence_of_clean hclean
    exact ⟨_, ⟨hsource, rfl, (checkSequence_gives hpasses).1 ▸ hlimit⟩, hpasses⟩
  · rintro ⟨source, ⟨hclean, rfl, hlimit⟩, hpasses⟩
    obtain ⟨hchecked, hitems⟩ := check_delivers (t := ⟨target, promote, l⟩) hclean hpasses
    exact ⟨hchecked, hitems, (checkSequence_gives hpasses).1 ▸ hlimit⟩

end Cursor

/-! ### Whole values -/

theorem Expr.value_iterate : {e : Expr} → {items : List Item} → (e.value call env).Gives items →
    ∃ c, (e.iterate call env).Gives c ∧ Clean (c.deliveries env.scoring) ∧
    delivered (c.deliveries env.scoring) = items
  | ⟨form, type, l⟩, items, h => by
    cases form
    case check operand target promote =>
      simp only [value, Logged.gives_bind] at h
      obtain ⟨source, hsource, h⟩ := h
      obtain ⟨c, hc, hclean, rfl⟩ := Expr.value_iterate hsource
      refine ⟨c.check ⟨target, promote, l⟩ env.forest 0, ?_, Cursor.check_delivers hclean h⟩
      simp only [iterate, Form.iterate, Logged.gives_locate, Logged.gives_bind, Logged.gives_pure]
      exact ⟨c, hc, rfl⟩
    all_goals
      simp only [value, Logged.gives_bind] at h
      obtain ⟨c, hc, h⟩ := h
      obtain ⟨hdelivered, hclean, -⟩ := Cursor.drain_delivered h
      exact ⟨c, by rwa [iterate], hclean, hdelivered⟩

/-- The whole value of an expression is what its cursor is drained to. -/
theorem Expr.value_iff_drained : {e : Expr} → {items : List Item} →
    ((e.value call env).Gives items ↔ (e.drained call env).Gives items)
  | ⟨form, type, l⟩, items => by
    by_cases hform : ∃ operand target promote, form = .check operand target promote
    · obtain ⟨operand, target, promote, rfl⟩ := hform
      have ih {source : List Item} : (operand.value call env).Gives source ↔
          (operand.drained call env).Gives source :=
        Expr.value_iff_drained
      simp only [drained, value, iterate, Form.iterate, Logged.gives_bind, Logged.gives_locate,
        Logged.gives_pure] at ih ⊢
      constructor
      · rintro ⟨source, hsource, hpasses⟩
        obtain ⟨c, hc, hdrain⟩ := ih.mp hsource
        exact ⟨_, ⟨c, hc, rfl⟩, Cursor.check_drains.mpr ⟨source, hdrain, hpasses⟩⟩
      · rintro ⟨_, ⟨c, hc, rfl⟩, hdrain⟩
        obtain ⟨source, hsource, hpasses⟩ := Cursor.check_drains.mp hdrain
        exact ⟨source, ih.mpr ⟨c, hc, hsource⟩, hpasses⟩
    · simp only [not_exists] at hform
      rw [value_of_not_check hform]
      rfl

end TreeQuery
