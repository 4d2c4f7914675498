import TreeQuery.Proofs.Atomic.Compare
import TreeQuery.Proofs.Truth.Verdict
import TreeQuery.Proofs.Check.Streaming
/-!
# What comparisons and full-text searches look for

A general comparison asks for an item on its left side that compares with some value on the right,
and a full-text search for an item of its input that matches: what their operands deliver supports
the answer in the sense of these properties of single items (`Form.iterate_comparison`,
`Env.search_gives`). Both look at whole values, which are those of cursors that deliver them without
a failure (`Expr.value_iterate`).
-/

namespace TreeQuery

variable {call : Caller} {env : Env}

/-! ### Comparisons -/

theorem atomizeAll_mem {forest : Forest} :
    {items : List Item} → {values : List Atomic} → atomizeAll forest items = .ok values →
    (∀ item ∈ items, ∃ v ∈ values, item.atomize forest = .ok v) ∧
    ∀ v ∈ values, ∃ item ∈ items, item.atomize forest = .ok v
  | [], values, h => by
    obtain rfl : [] = values := by simpa [atomizeAll, pure, Except.pure] using h
    simp
  | item :: items, values, h => by
    rw [atomizeAll, List.mapM_cons] at h
    cases hitem : item.atomize forest with
    | error e => simp [hitem, bind, Except.bind] at h
    | ok v =>
      cases hitems : items.mapM (Item.atomize forest) with
      | error e => simp [hitem, hitems, bind, Except.bind] at h
      | ok vs =>
        obtain rfl : v :: vs = values := by
          simpa only [hitem, hitems, bind, Except.bind, pure, Except.pure, Except.ok.injEq] using h
        have hitems : atomizeAll forest items = .ok vs := hitems
        obtain ⟨hfrom, hto⟩ := atomizeAll_mem hitems
        constructor
        · intro i hi
          rcases List.mem_cons.mp hi with rfl | hi
          · exact ⟨v, List.mem_cons_self, hitem⟩
          · obtain ⟨w, hw, heq⟩ := hfrom i hi
            exact ⟨w, List.mem_cons_of_mem v hw, heq⟩
        · intro w hw
          rcases List.mem_cons.mp hw with rfl | hw
          · exact ⟨item, List.mem_cons_self, hitem⟩
          · obtain ⟨i, hi, heq⟩ := hto w hw
            exact ⟨i, List.mem_cons_of_mem item hi, heq⟩

def Expr.atoms (call : Caller) (env : Env) (e : Expr) : Run (List Atomic) := do
  let items ← e.value call env
  Logged.lift (atomizeAll env.forest items)

def Compares (forest : Forest) (op : CompareOp) (values : Run (List Atomic)) (item : Item) : Prop :=
  ∃ ws, values.Gives ws ∧ ∃ v, item.atomize forest = .ok v ∧
    ∃ w ∈ ws, Atomic.comparePair op v w = .ok true

section

variable {op : CompareOp} {left right : Expr} {b : Bool}

theorem compares_supports {forest : Forest} {values : Run (List Atomic)} {ds : List Delivery}
    (hclean : Clean ds) {vs ws : List Atomic} (hvs : atomizeAll forest (delivered ds) = .ok vs)
    (hws : values.Gives ws)
    (h : compareGeneral op vs ws = .ok b ∨ compareGeneral op.swap ws vs = .ok b) :
    Supports (Compares forest op values) ds b := by
  obtain ⟨hfrom, hto⟩ := atomizeAll_mem hvs
  have exchange {v w : Atomic} {r : Bool} (h : Atomic.comparePair op.swap w v = .ok r) :
      Atomic.comparePair op v w = .ok r := by
    simpa only [CompareOp.swap_swap] using Atomic.comparePair_swap h
  cases b
  · have hpairs : ∀ v ∈ vs, ∀ w ∈ ws, Atomic.comparePair op v w = .ok false := by
      rcases h with h | h
      · exact compareGeneral_false h
      · exact fun v hv w hw => exchange (compareGeneral_false h w hw v hv)
    refine ⟨hclean, ?_⟩
    rintro item hitem ⟨ws', hws', v, hv, w, hw, hpair⟩
    obtain rfl := hws.unique hws'
    obtain ⟨v', hv', heq⟩ := hfrom item hitem
    obtain rfl : v = v' := Except.ok.inj (hv.symm.trans heq)
    rw [hpairs v hv' w hw] at hpair
    cases hpair
  · have hpair : ∃ v ∈ vs, ∃ w ∈ ws, Atomic.comparePair op v w = .ok true := by
      rcases h with h | h
      · exact compareGeneral_true h
      · obtain ⟨w, hw, v, hv, hpair⟩ := compareGeneral_true h
        exact ⟨v, hv, w, hw, exchange hpair⟩
    obtain ⟨v, hv, w, hw, hpair⟩ := hpair
    obtain ⟨item, hitem, heq⟩ := hto v hv
    exact ⟨item, hitem, ws, hws, v, heq, w, hw, hpair⟩

theorem Form.iterate_general {l : Option Location} {c : Cursor}
    (h : ((Form.comparison .general op left right).iterate call env l).Gives c) :
    ∃ b vs ws, c = .ofBool b ∧
      (left.atoms call env).Gives vs ∧ (right.atoms call env).Gives ws ∧
      compareGeneral op vs ws = .ok b := by
  simp only [iterate, Logged.gives_bind, Logged.gives_map, Logged.gives_lift, compareAtomics] at h
  obtain ⟨items, hitems, vs, hvs, items', hitems', ws, hws, result, h, rfl⟩ := h
  cases hcompare : compareGeneral op vs ws with
  | error e => simp [hcompare, Except.map] at h
  | ok b =>
    obtain rfl : [.atomic (.boolean b)] = result := by simpa [hcompare, Except.map] using h
    refine ⟨b, vs, ws, rfl, ?_, ?_, hcompare⟩
    · simp only [Expr.atoms, Logged.gives_bind, Logged.gives_lift]
      exact ⟨items, hitems, hvs⟩
    · simp only [Expr.atoms, Logged.gives_bind, Logged.gives_lift]
      exact ⟨items', hitems', hws⟩

theorem Expr.atoms_gives {e : Expr} {vs : List Atomic} (h : (e.atoms call env).Gives vs) :
    ∃ d, (e.iterate call env).Gives d ∧
    Clean (d.deliveries env.scoring) ∧
    atomizeAll env.forest (delivered (d.deliveries env.scoring)) = .ok vs := by
  simp only [atoms, Logged.gives_bind, Logged.gives_lift] at h
  obtain ⟨items, hitems, hvs⟩ := h
  obtain ⟨d, hd, hclean, rfl⟩ := Expr.value_iterate hitems
  exact ⟨d, hd, hclean, hvs⟩

end

/-! ### Full-text search -/

def Matches (env : Env) (query : Run (List Item)) (item : Item) : Prop :=
  ∃ matcher words v m, env.matcher = some matcher ∧ (query >>= env.texts).Gives words ∧
    item.atomize env.forest = .ok v ∧ matcher v.lexical words = .ok m ∧ m.found = true

theorem TextMatch.found_best (a b : TextMatch) : (a.best b).found = (a.found || b.found) := by
  unfold best
  cases hb : b.found <;> simp

/-- Searching for words tries all items; one that matches is found. -/
theorem foldDeliveries_search {forest : Forest} {matcher : Matcher} {words : List String} :
    {ds : List Delivery} →
    {best m : TextMatch} → foldDeliveries (fun best item _ => (do
      let v ← Logged.lift (item.atomize forest)
      let m ← Logged.lift (matcher v.lexical words)
      return best.best m : Run TextMatch).outcome) best ds = .ok m →
    Clean ds ∧
    (m.found = true ↔ best.found = true ∨
      ∃ item ∈ delivered ds, ∃ v m', item.atomize forest = .ok v ∧
      matcher v.lexical words = .ok m' ∧ m'.found = true)
  | [], best, m, h => by
    obtain rfl : best = m := Except.ok.inj h
    simp
  | (.error e, _) :: _, _, _, h => by simp [foldDeliveries] at h
  | (.ok item, score) :: ds, best, m, h => by
    rw [foldDeliveries] at h
    cases hv : item.atomize forest with
    | error e => simp [hv, Logged.lift, bind, Logged.bind, Except.bind] at h
    | ok v =>
      cases hm : matcher v.lexical words with
      | error e => simp [hv, hm, Logged.lift, bind, Logged.bind, Except.bind] at h
      | ok m' =>
        simp only [hv, hm, Logged.lift, bind, Logged.bind, Except.bind, pure, Logged.pure] at h
        obtain ⟨hclean, hfound⟩ := foldDeliveries_search h
        refine ⟨hclean, ?_⟩
        rw [hfound, TextMatch.found_best, Bool.or_eq_true, or_assoc]
        refine or_congr_right ?_
        simp [hv, hm]

theorem Env.search_gives {query : Run (List Item)} {input : Run Cursor} {m : TextMatch}
    (h : (env.search query input).Gives m) :
    ∃ d, input.Gives d ∧ Supports (Matches env query) (d.deliveries env.scoring) m.found := by
  simp only [search, Logged.gives_bind] at h
  obtain ⟨matcher, hmatcher, words', hquery, words, hwords, d, hd, h⟩ := h
  have hmatcher : env.matcher = some matcher := by
    unfold requireMatcher at hmatcher
    split at hmatcher
    · next heq => exact heq.trans (congrArg some (Logged.gives_pure.mp hmatcher))
    · simp at hmatcher
  have hwords : (query >>= env.texts).Gives words := Logged.gives_bind.mpr ⟨words', hquery, hwords⟩
  rw [searchText, Logged.Gives, Cursor.outcome_fold] at h
  obtain ⟨hclean, hfound⟩ := foldDeliveries_search h
  refine ⟨d, hd, ?_⟩
  cases hm : m.found
  · refine ⟨hclean, ?_⟩
    rintro item hitem ⟨matcher', words'', v, m', hmatcher', hwords', hv, hm', htrue⟩
    obtain rfl : matcher = matcher' := Option.some.inj (hmatcher.symm.trans hmatcher')
    obtain rfl := hwords.unique hwords'
    rw [hm] at hfound
    exact Bool.false_ne_true (hfound.mpr (.inr ⟨item, hitem, v, m', hv, hm', htrue⟩))
  · rw [hm] at hfound
    rcases hfound.mp rfl with hmiss | ⟨item, hitem, v, m', hv, hm', htrue⟩
    · cases hmiss
    · exact ⟨item, hitem, matcher, words, v, m', hmatcher, hwords, hv, hm', htrue⟩

end TreeQuery
