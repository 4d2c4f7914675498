import Mathlib.Data.List.Chain
import TreeQuery.Eval.Call
import TreeQuery.Proofs.Compile.Failures
import TreeQuery.Proofs.Filter.InTurn
/-!
# Windows in a row

A window that follows another one selects from the positions in that one. `Window.fuse` finds the
one window for both (`Window.part_fuse`), and a list of predicates in which such windows are joined
keeps the items that it kept before: `mergeWindows_keeps`. No two windows stand side by side any
more, so that joining once more changes nothing.
-/

namespace TreeQuery

namespace Window

variable {α : Type}

theorem part_eq_drop_take (w : Window) : (pos : Nat) → (as : List α) →
    w.part pos as = (as.take (w.last - pos)).drop (w.first - 1 - pos)
  | _, [] => by simp [part]
  | pos, a :: as => by
    have := w.one_le_first
    have := w.first_le_last
    rw [part, part_eq_drop_take w (pos + 1) as, contains]
    by_cases hafter : w.last ≤ pos
    · rw [if_neg (by simp; omega), show w.last -
        pos = 0 by omega, show w.last - (pos + 1) = 0 by omega]
      simp
    rw [show w.last - pos = w.last - (pos + 1) + 1 by omega, List.take_succ_cons]
    by_cases hbefore : w.first ≤ pos + 1
    · rw [if_pos (by simp; omega), show w.first - 1 -
        pos = 0 by omega, show w.first - 1 - (pos + 1) = 0 by omega, List.drop_zero, List.drop_zero]
    · rw [if_neg (by simp; omega), show w.first - 1 - pos = w.first - 1 - (pos + 1) +
        1 by omega, List.drop_succ_cons]

theorem part_part (v w : Window) (as : List α) :
    w.part 0 (v.part 0 as) = (as.take (min v.last (v.first - 1 + w.last))).drop
      (v.first - 1 + (w.first - 1)) := by
  simp only [part_eq_drop_take, Nat.sub_zero, List.take_drop, List.drop_drop,
    List.take_take, Nat.min_comm]

theorem between_cases (first last : Nat) :
    (∃ u : Window, between first last = .within u ∧ u.first = max first 1 ∧ u.last = last) ∨
      between first last = .never ∧ (last < max first 1 ∨ noEnd < last) := by
  unfold between between?
  split
  · next u hu =>
    split at hu
    · obtain rfl := Option.some.inj hu
      exact .inl ⟨_, rfl, rfl, rfl⟩
    · cases hu
  · next hu =>
    split at hu
    · cases hu
    · exact .inr ⟨rfl, by omega⟩

/-- What two windows in a row select from fewer elements than there are positions: what the fused
window selects, and nothing if there is none. Sums that stop at the greatest word stop behind the
last element. -/
theorem part_fuse (v w : Window) {as : List α} (hlength : as.length < noEnd) :
    match v.fuse w with
    | .within u => w.part 0 (v.part 0 as) = u.part 0 as
    | .never => w.part 0 (v.part 0 as) = [] := by
  have := v.one_le_first
  have := w.one_le_first
  have := w.first_le_last
  have := v.last_le_noEnd
  rw [part_part]
  unfold fuse
  dsimp only
  generalize hlast : min v.last
    (if w.isUnbounded then noEnd else addUpTo v.first (w.last - 1)) = last
  generalize hfirst : addUpTo v.first (w.first - 1) = first
  -- behind the last element a position is as good as any other
  have htake : min last as.length = min (min v.last (v.first - 1 + w.last)) as.length := by
    rw [← hlast, addUpTo, isUnbounded]
    by_cases hend : w.last = noEnd
    · rw [hend, beq_self_eq_true, if_pos rfl]
      omega
    · rw [beq_eq_false_iff_ne.mpr hend, if_neg (by decide)]
      omega
  have hdrop : min (first - 1) as.length = min (v.first - 1 + (w.first - 1)) as.length := by
    rw [← hfirst, addUpTo]
    omega
  obtain ⟨u, hu, hufirst, hulast⟩ | ⟨hnever, hlt⟩ := between_cases first last
  · rw [hu]
    dsimp only
    rw [part_eq_drop_take, hufirst, hulast, Nat.sub_zero, Nat.sub_zero,
      List.take_eq_take_iff.mpr htake]
    rw [List.drop_eq_drop_iff, List.length_take]
    omega
  · rw [hnever]
    dsimp only
    rw [List.drop_eq_nil_iff, List.length_take]
    omega

end Window

/-! ### Filtering in turn -/

section

variable {call : Caller} {env : Env}

theorem keepScored_items {judge : Nat → Nat → Item → Run (Option Number)} {size : Nat} :
    (items items' : List (Item × Number)) →
    {pos : Nat} → itemsOf items = itemsOf items' →
    itemsOf <$> keepScored judge size pos items = itemsOf <$> keepScored judge size pos items'
  | [], [], _, _ => rfl
  | (item, total) :: rest, (item', total') :: rest', pos, h => by
    obtain ⟨rfl, hrest⟩ := List.cons.inj h
    simp only [keepScored, map_bind]
    congr 1
    funext verdict
    refine Logged.bind_eq_of_map_eq (keepScored_items rest rest' hrest) fun kept kept' hkept => ?_
    cases verdict with
    | none => simp only [map_pure, hkept]
    | some score => simp only [map_pure, List.map_cons, hkept]

theorem filterInTurn_items : (es : List Expr) → {items items' : List (Item × Number)} →
    itemsOf items = itemsOf items' →
    itemsOf <$> filterInTurn call env items es = itemsOf <$> filterInTurn call env items' es
  | [], _, _, h => by rw [filterInTurn, filterInTurn, map_pure, map_pure, h]
  | e :: es, items, items', h => by
    have hlength : items.length = items'.length := by simpa using congrArg List.length h
    simp only [filterInTurn, map_bind, hlength]
    exact Logged.bind_eq_of_map_eq (keepScored_items items items' h) fun kept kept' hkept =>
      filterInTurn_items es hkept

theorem filterInTurn_nil (es : List Expr) : filterInTurn call env [] es = pure [] := by
  induction es with
  | nil => rfl
  | cons e es ih => rw [filterInTurn, keepScored, Logged.pure_bind, ih]

theorem filterInTurn_window {e : Expr} {w : Window} (he : e.window? = some w)
    (items : List (Item × Number)) (es : List Expr) : filterInTurn call env items (e :: es) =
      filterInTurn call env
        ((w.part 0 items).map fun entry => (entry.1, entry.2.add .double .zero)) es := by
  obtain ⟨form, τ, l⟩ := e
  cases form <;> simp only [Expr.window?, reduceCtorEq, Option.some.injEq] at he
  subst he
  rw [filterInTurn]
  simp only [Expr.test_position, keepScored_window, Logged.pure_bind]

/-- Two windows in a row keep what the fused window keeps, with the predicates behind them, and
nothing if there is none. -/
theorem filterInTurn_fuse (call : Caller) (env : Env) {e d : Expr} {v w : Window}
    (he : e.window? = some v) (hd : d.window? = some w) (es : List Expr)
    {items : List (Item × Number)} (hlength : items.length < noEnd) :
    (∀ f u, v.fuse w = .within u → f.window? = some u →
      itemsOf <$> filterInTurn call env items (f :: es) = itemsOf <$>
      filterInTurn call env items (e :: d :: es)) ∧
    (v.fuse w = .never → filterInTurn call env items (e :: d :: es) = pure []) := by
  have hpart := v.part_fuse w hlength
  rw [filterInTurn_window he, filterInTurn_window hd]
  refine ⟨fun f u hu hf => ?_, fun hnever => ?_⟩
  · rw [hu] at hpart
    rw [filterInTurn_window hf]
    refine filterInTurn_items es ?_
    simp only [itemsOf, Window.part_map, List.map_map, Function.comp_def, hpart]
  · rw [hnever] at hpart
    simp only [Window.part_map, hpart, List.map_nil, filterInTurn_nil]

/-! ### The joined list -/

theorem mergeFrom_cons {last e : Expr} {es : List Expr} {merged : Option (List Expr)}
    (h : (mergeFrom last (e :: es)).Gives merged) :
    (∃ v w, last.window? = some v ∧ e.window? = some w ∧
      ((∃ u, v.fuse w = .within u ∧
        (mergeFrom ((Expr.of (.position u)).at? last.location) es).Gives merged) ∨
        v.fuse w = .never ∧ merged = none)) ∨
    (last.window? = none ∨ e.window? = none) ∧ ∃ rest, (mergeFrom e es).Gives rest ∧
    merged = rest.map (last :: ·) := by
  rw [mergeFrom] at h
  split at h
  · next v w hv hw =>
    refine .inl ⟨v, w, hv, hw, ?_⟩
    split at h
    · next u hu =>
      simp only [Logged.gives_bind, gives_remark, true_and, exists_const] at h
      exact .inl ⟨u, hu, h⟩
    · next hnever =>
      simp only [Logged.gives_bind, gives_remark, true_and, exists_const, Logged.gives_pure] at h
      exact .inr ⟨hnever, h.symm⟩
  · next hnot =>
    simp only [Logged.gives_bind, Logged.gives_pure] at h
    obtain ⟨rest, hrest, rfl⟩ := h
    refine .inr ⟨?_, rest, hrest, rfl⟩
    cases hv : last.window? with
    | none => exact .inl rfl
    | some v =>
      cases hw : e.window? with
      | none => exact .inr rfl
      | some w => exact absurd hw (hnot v w hv)

/-- What predicates are joined to keeps the items that they keep, and fails and writes traces as
they do; where joining finds nothing they keep none. -/
def KeepsAlike (call : Caller) (env : Env) (es : List Expr) (items : List (Item × Number)) :
    Option (List Expr) → Prop
  | some fs => itemsOf <$> filterInTurn call env items fs = itemsOf <$>
    filterInTurn call env items es
  | none => ∀ kept, (itemsOf <$> filterInTurn call env items es).Gives kept → kept = []

theorem KeepsAlike.cons {last : Expr} {es : List Expr} {items : List (Item × Number)}
    {rest : Option (List Expr)}
    (h : ∀ passed : List (Item × Number), passed.length ≤ items.length →
      KeepsAlike call env es passed rest) :
    KeepsAlike call env (last :: es) items (rest.map (last :: ·)) := by
  have hpassed {judge : Nat → Nat → Item → Run (Option Number)} {size : Nat}
    {passed : List (Item × Number)}
      (h : (keepScored judge size 0 items).Gives passed) : passed.length ≤ items.length := by
    simpa using (keepScored_sublist items h).length_le
  cases rest with
  | some fs =>
    simp only [Option.map_some, KeepsAlike, filterInTurn, map_bind]
    exact Logged.bind_eq_of_gives fun passed hgives => h passed (hpassed hgives)
  | none =>
    simp only [Option.map_none, KeepsAlike, filterInTurn, map_bind, Logged.gives_bind]
    rintro kept ⟨passed, hgives, hkept⟩
    exact h passed (hpassed hgives) kept hkept

theorem mergeFrom_keeps : {es : List Expr} → {last : Expr} → {merged : Option (List Expr)} →
    (mergeFrom last es).Gives merged →
    (items : List (Item × Number)) → items.length < noEnd →
    KeepsAlike call env (last :: es) items merged
  | [], last, merged, h, items, _ => by
    obtain rfl := Logged.gives_pure.mp h
    exact rfl
  | e :: es, last, merged, h, items, hlength => by
    obtain ⟨v, w, hv, hw, ⟨u, hu, h⟩ | ⟨hnever, rfl⟩⟩ | ⟨-, rest, hrest, rfl⟩ := mergeFrom_cons h
    · have ih := mergeFrom_keeps h items hlength
      have hfuse := (filterInTurn_fuse call env hv hw es hlength).1
        ((Expr.of (.position u)).at? last.location) u hu rfl
      cases merged <;> simpa only [KeepsAlike, hfuse] using ih
    · intro kept hkept
      rw [(filterInTurn_fuse call env hv hw es hlength).2 hnever, map_pure,
        Logged.gives_pure] at hkept
      exact hkept.symm
    · exact KeepsAlike.cons fun passed hle =>
        mergeFrom_keeps hrest passed (Nat.lt_of_le_of_lt hle hlength)

theorem mergeWindows_keepsAlike {es : List Expr} {merged : Option (List Expr)}
    (h : (mergeWindows es).Gives merged) (items : List (Item × Number))
    (hlength : items.length < noEnd) : KeepsAlike call env es items merged := by
  cases es with
  | nil =>
    obtain rfl := Logged.gives_pure.mp h
    exact rfl
  | cons e es => exact mergeFrom_keeps h items hlength

/-! ### The form of the joined list -/

def Apart (es : List Expr) : Prop := es.IsChain fun e d => e.window? = none ∨ d.window? = none

theorem mergeFrom_apart : {es : List Expr} → {last : Expr} → {fs : List Expr} →
    (mergeFrom last es).Gives (some fs) →
    ∃ f rest, fs = f :: rest ∧ (last.window? = none → f.window? = none) ∧ Apart fs
  | [], last, fs, h => by
    obtain rfl := Option.some.inj (Logged.gives_pure.mp h)
    exact ⟨last, [], rfl, id, .singleton last⟩
  | e :: es, last, fs, h => by
    obtain ⟨v, w, hv, -, ⟨u, -, h⟩ | ⟨-, hnone⟩⟩ | ⟨hnot, rest, hrest, hsome⟩ := mergeFrom_cons h
    · obtain ⟨f, rest, rfl, -, hapart⟩ := mergeFrom_apart h
      exact ⟨f, rest, rfl, fun hlast => by simp [hv] at hlast, hapart⟩
    · cases hnone
    · obtain ⟨gs, rfl, rfl⟩ := Option.map_eq_some_iff.mp hsome.symm
      obtain ⟨g, rest, rfl, hg, hapart⟩ := mergeFrom_apart hrest
      exact ⟨last, g :: rest, rfl, id, .cons_cons (hnot.imp_right hg) hapart⟩

theorem mergeFrom_of_apart : (es : List Expr) → {last : Expr} → Apart (last :: es) →
    mergeFrom last es = pure (some (last :: es))
  | [], _, _ => rfl
  | e :: es, last, h => by
    obtain ⟨hnot, hapart⟩ := List.isChain_cons_cons.mp h
    rw [mergeFrom, mergeFrom_of_apart es hapart]
    split
    · next v w hv hw => simp [hv, hw] at hnot
    · rfl

theorem mergeWindows_of_apart {es : List Expr} (h : Apart es) :
    mergeWindows es = pure (some es) := by
  cases es with
  | nil => rfl
  | cons e es => exact mergeFrom_of_apart es h

theorem mergeWindows_apart {es fs : List Expr} (h : (mergeWindows es).Gives (some fs)) :
    Apart fs := by
  cases es with
  | nil =>
    obtain rfl := Option.some.inj (Logged.gives_pure.mp h)
    exact .nil
  | cons e es =>
    obtain ⟨-, -, -, -, hapart⟩ := mergeFrom_apart h
    exact hapart

/-- Joining windows keeps the meaning of a list of predicates that are applied one after the other,
each numbering anew what is left: over fewer items than there are positions the joined list keeps
the same items, with the same failures and traces, and where a window becomes empty the list keeps
none whenever it does not fail. The joined list has no two windows side by side and is left as it is
when it is joined again, and a fused window is a run of positions from 1 up that is not empty. -/
theorem mergeWindows_keeps (call : Caller) (env : Env) (es : List Expr) :
    (∃ merged, (mergeWindows es).Gives merged ∧
      (∀ fs, merged = some fs →
        (∀ items : List (Item × Number), items.length < noEnd →
          itemsOf <$> filterInTurn call env items fs = itemsOf <$> filterInTurn call env items es) ∧
        Apart fs ∧ mergeWindows fs = pure (some fs)) ∧
      (merged = none → ∀ items kept : List (Item × Number), items.length < noEnd →
        (filterInTurn call env items es).Gives kept → kept = [])) ∧
    ∀ v w u : Window, v.fuse w = .within u → 1 ≤ u.first ∧ u.first ≤ u.last ∧ u.last ≤ noEnd := by
  obtain ⟨merged, hmerged⟩ | ⟨f, hfails⟩ := (mergeWindows es).gives_or_fails
  · refine ⟨⟨merged, hmerged, ?_, ?_⟩, fun _ _ u _ =>
      ⟨u.one_le_first, u.first_le_last, u.last_le_noEnd⟩⟩
    · rintro fs rfl
      have hapart := mergeWindows_apart hmerged
      exact ⟨mergeWindows_keepsAlike hmerged, hapart, mergeWindows_of_apart hapart⟩
    · rintro rfl items kept hlength hkept
      have hnone := mergeWindows_keepsAlike hmerged items hlength (itemsOf kept)
        (Logged.gives_map.mpr ⟨kept, hkept, rfl⟩)
      exact List.map_eq_nil_iff.mp hnone
  · exact absurd hfails fails_mergeWindows

/-- The second of the positions from 2 to 5 is the third of all. -/
theorem mergeWindows_keeps_third :
    let window (first last : Nat) (h : 1 ≤ first ∧ first ≤ last ∧ last ≤ noEnd) : Expr :=
      .of (.position ⟨first, last, h.1, h.2.1, h.2.2⟩)
    let env : Env := .ofContext { forest := .empty false }
    let items : List (Item × Number) := [10, 20, 30, 40].map fun i => (.atomic (.integer i), .zero)
    items.length < noEnd ∧ itemsOf <$>
      filterInTurn (callWithin 0) env items [window 3 3 (by decide)] =
      itemsOf <$> filterInTurn (callWithin 0) env items
        [window 2 5 (by decide), window 2 2 (by decide)] := by
  intro window env items
  obtain ⟨⟨merged, hmerged, hsome, -⟩, -⟩ :=
    mergeWindows_keeps (callWithin 0) env [window 2 5 (by decide), window 2 2 (by decide)]
  have hthird : merged = some [window 3 3 (by decide)] := hmerged.unique rfl
  exact ⟨by decide, (hsome _ hthird).1 items (by decide)⟩

end

end TreeQuery
