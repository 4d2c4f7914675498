import TreeQuery.Proofs.Cursor.Items
import TreeQuery.Proofs.Filter.InTurn
import TreeQuery.Proofs.Number.Exact
import TreeQuery.Proofs.Typing.Lengths
/-!
# How many items a filter leaves

The static type of a filter bounds the number of items by what windows and the number of the last
position leave of them. Each of the strategies keeps to these bounds, and to the letter if all
predicates are of that kind (`Cursor.filterBy_counts`).
-/

namespace TreeQuery

def limitAll (es : List Expr) (most : Option Nat) : Option Nat :=
  es.foldl (fun most e => limitBy e most) most

theorem limitBy_of_not_positional {e : Expr} (h : e.isPositional = false) :
    (∀ most, limitBy e most = most) ∧ limitsExactly e = false := by
  obtain ⟨form, τ, l⟩ := e
  simp only [Expr.isPositional, Bool.or_eq_false_iff] at h
  have hlast : (⟨form, τ, l⟩ : Expr).isCallOf .last = false := by
    cases form <;> try rfl
    next f args =>
      cases f <;> first | rfl | simp [Expr.dependsOn, Form.dependsOn, Dependency.ofBuiltin] at h
  have hwindow : (⟨form, τ, l⟩ : Expr).window? = none := by
    cases form <;> first | rfl | simp [Expr.dependsOn, Form.dependsOn] at h
  exact ⟨fun most => by simp [limitBy, hlast, hwindow], by simp [limitsExactly, hlast, hwindow]⟩

theorem limitAll_of_not_positional : {es : List Expr} → (∀ e ∈ es, e.isPositional = false) →
    (most : Option Nat) →
    limitAll es most = most
  | [], _, _ => rfl
  | e :: es, h, most => by
    have ih := limitAll_of_not_positional (fun e he => h e (List.mem_cons_of_mem _ he)) most
    rwa [limitAll, List.foldl_cons, (limitBy_of_not_positional (h e List.mem_cons_self)).1 most]

theorem limitBy_some (e : Expr) (n : Nat) : ∃ m, limitBy e (some n) = some m ∧ m ≤ n := by
  unfold limitBy
  split
  · exact ⟨_, rfl, Nat.min_le_left n 1⟩
  split
  · next w _ =>
    dsimp only [Option.map_some]
    split
    · exact ⟨_, rfl, Nat.sub_le ..⟩
    · exact ⟨_, rfl, Nat.le_trans (Nat.min_le_left ..) (Nat.sub_le ..)⟩
  · exact ⟨n, rfl, Nat.le_refl n⟩

theorem limitAll_some : (es : List Expr) → (n : Nat) → ∃ m, limitAll es (some n) = some m ∧ m ≤ n
  | [], n => ⟨n, rfl, Nat.le_refl n⟩
  | e :: es, n => by
    obtain ⟨k, hk, hkn⟩ := limitBy_some e n
    obtain ⟨m, hm, hmk⟩ := limitAll_some es k
    exact ⟨m, by rwa [limitAll, List.foldl_cons, hk], Nat.le_trans hmk hkn⟩

/-- Items that keep to the bounds of their predicates have the length that the static type of the
filter says. -/
theorem Counts.filter {σ : StaticType} {es : List Expr} {k n : Nat} {p q : Prop}
    (h : Counts σ.occurrence σ.size k p) (hle : n ≤ k)
    (hmost : ∀ m, limitAll es σ.size = some m → n ≤ m)
    (hexact : q → ∀ s, σ.size = some s → es.all limitsExactly = true →
      limitAll es (some s) = some n) :
    Counts (filterType σ es).occurrence (filterType σ es).size n q := by
  unfold filterType filteredType
  rw [show es.foldl (fun most e => limitBy e most) σ.size = limitAll es σ.size from rfl]
  dsimp only
  split
  · next hzero =>
    obtain rfl := Nat.le_zero.mp (hmost 0 hzero)
    exact Counts.of σ.item (fun _ _ => Nat.zero_le _) fun _ => Nat.le_refl 0
  · refine Counts.make σ.item ⟨?_, ?_, ?_, ?_⟩
    · split
      · next hone => exact fun m hm => Option.some.inj hm ▸ hmost 1 hone
      · exact (h.atMost.mono hle).union_left
    · intro m hm
      obtain ⟨hall, hm⟩ := Option.ite_none_right_eq_some.mp hm
      obtain ⟨hsome, -⟩ := Bool.and_eq_true_iff.mp hall
      obtain ⟨s, hs⟩ := Option.isSome_iff_exists.mp hsome
      obtain ⟨m', hm', hle'⟩ := limitAll_some es s
      rw [← hs, hm] at hm'
      obtain rfl := Option.some.inj hm'
      exact ⟨hmost m hm, Nat.le_trans hle' (h.le_size s hs).2⟩
    · intro _
      split
      · exact Nat.zero_le n
      · exact Nat.le_trans Occurrence.union_min_le_right (Nat.zero_le n)
    · intro hq m hm
      obtain ⟨hall, hm⟩ := Option.ite_none_right_eq_some.mp hm
      obtain ⟨hsome, hexactly⟩ := Bool.and_eq_true_iff.mp hall
      obtain ⟨s, hs⟩ := Option.isSome_iff_exists.mp hsome
      rw [hs, hexact hq s hs hexactly] at hm
      exact Option.some.inj hm

/-! ### One predicate -/

theorem Expr.eq_of_window? {e : Expr} {w : Window} (h : e.window? = some w) :
    ∃ τ l, e = ⟨.position w, τ, l⟩ := by
  obtain ⟨form, τ, l⟩ := e
  cases form <;> simp only [window?, reduceCtorEq, Option.some.injEq] at h
  exact ⟨τ, l, h ▸ rfl⟩

theorem limitBy_window {e : Expr} {w : Window} (he : e.window? = some w)
    (hlast : e.isCallOf .last = false) {n : Nat} :
    (∀ most, (∀ m, most = some m → n ≤ m) → ∀ m, limitBy e most = some m →
      min n w.last - (w.first - 1) ≤ m) ∧
      (n ≤ noEnd → limitBy e (some n) = some (min n w.last - (w.first - 1))) := by
  have := w.one_le_first
  have := w.first_le_last
  simp only [limitBy, hlast, he, Bool.false_eq_true, if_false, Window.width, Window.isUnbounded]
  by_cases hend : w.last = noEnd
  · simp only [hend, beq_self_eq_true, if_true]
    refine ⟨fun most hn m hm => ?_, fun hn => ?_⟩
    · obtain ⟨m, rfl, rfl⟩ := Option.map_eq_some_iff.mp hm
      have := hn m rfl
      omega
    · rw [Option.map_some, Nat.min_eq_left hn]
  · simp only [beq_eq_false_iff_ne.mpr hend, Bool.false_eq_true, if_false]
    refine ⟨fun most hn m hm => ?_, fun _ => ?_⟩
    · obtain rfl := Option.some.inj hm
      cases most with
      | none => dsimp only [Option.map_none]; omega
      | some m =>
        have := hn m rfl
        dsimp only [Option.map_some]
        omega
    · rw [Option.map_some]
      dsimp only
      congr 1
      omega

section

variable {call : Caller} {env : Env}

theorem Expr.test_last {e : Expr} (he : e.isCallOf .last = true) {size position : Nat}
    (hsize : size ≤ memoryLimit) (hposition : position ≤ size) {scoring : Bool} {item : Item} :
    e.test call (env.focusOn (some size) scoring position item) = pure
      (if position == size then some .zero else none) := by
  obtain ⟨form, τ, l⟩ := e
  cases form <;> simp [isCallOf] at he
  next f args =>
    subst he
    have hnumber : (min (size : Int) Atomic.maxInteger) = size := by
      have hlimit : (memoryLimit : Int) ≤ Atomic.maxInteger := by decide
      omega
    have hcall : callBuiltin call (env.focusOn (some size) scoring position item) .last args = pure
        (Cursor.ofNat size) := by
      cases args <;> rfl
    have htruth : (Cursor.ofNat size).predicateTruth scoring l position =
        pure ((Format.double.ofInt (min (size : Int) Atomic.maxInteger)).same
          (Format.double.ofInt position)) := rfl
    have hsame : (Format.double.ofInt size).same (Format.double.ofInt position) =
        (position == size) := by
      rw [Bool.eq_iff_iff, Number.same_ofInt_iff hsize (Nat.le_trans hposition hsize),
        beq_iff_eq, eq_comm]
    simp only [test, Form.iterate, hcall]
    rw [show (pure (Cursor.ofNat size) : Run Cursor).locate l = pure (Cursor.ofNat size) from rfl,
      Logged.pure_bind]
    simp only [Env.focusOn, htruth, hnumber, hsame, Logged.pure_bind]

theorem keepScored_last {e : Expr} (he : e.isCallOf .last = true)
    {items kept : List (Item × Number)} (hlength : items.length ≤ memoryLimit)
    (h : (keepScored (fun size position item => e.test call (env.focusOn (some size) env.scoring position item))
      items.length 0 items).Gives kept) : kept.length = min items.length 1 := by
  rw [keepScored_places (· == items.length) 0 items fun _ _ hle =>
    Expr.test_last he hlength (by omega), Logged.gives_pure] at h
  rw [← h, List.length_map, length_keepPlaces_last 0 items (Nat.zero_add _)]

theorem keepScored_limit {e : Expr} {items kept : List (Item × Number)}
    (hlength : items.length ≤ memoryLimit)
    (h : (keepScored (fun size position item => e.test call (env.focusOn (some size) env.scoring position item))
      items.length 0 items).Gives kept) :
    (∀ most, (∀ m, most = some m → items.length ≤ m) → ∀ m, limitBy e most = some m →
      kept.length ≤ m) ∧
      (limitsExactly e = true → limitBy e (some items.length) = some kept.length) := by
  by_cases hlast : e.isCallOf .last = true
  · have hkept := keepScored_last hlast hlength h
    simp only [limitBy, hlast, if_true, hkept]
    refine ⟨fun most hmost m hm => ?_, fun _ => trivial⟩
    obtain rfl := Option.some.inj hm
    cases most with
    | none => exact Nat.min_le_right ..
    | some m =>
      have := hmost m rfl
      dsimp only
      omega
  have hlast : e.isCallOf .last = false := by simpa using hlast
  cases hwindow : e.window? with
  | some w =>
    obtain ⟨τ, l, rfl⟩ := Expr.eq_of_window? hwindow
    simp only [Expr.test_position, keepScored_window, Logged.gives_pure] at h
    have hpart : kept.length = min items.length w.last - (w.first - 1) := by
      rw [← h, List.length_map, Window.length_part]
      omega
    obtain ⟨hmost, hexact⟩ :=
      limitBy_window (e := ⟨.position w, τ, l⟩) rfl hlast (n := items.length)
    rw [hpart]
    exact ⟨hmost, fun _ => hexact (Nat.le_trans hlength (by decide))⟩
  | none =>
    simp only [limitBy, limitsExactly, hlast, hwindow, Bool.false_eq_true, if_false]
    have hsublist := (keepScored_sublist items h).length_le
    simp only [List.length_map] at hsublist
    exact ⟨fun most hmost m hm => Nat.le_trans hsublist (hmost m hm), by simp⟩

theorem filterInTurn_limit : (es : List Expr) → {items kept : List (Item × Number)} →
    items.length ≤ memoryLimit →
    (filterInTurn call env items es).Gives kept →
    (∀ most, (∀ m, most = some m → items.length ≤ m) → ∀ m, limitAll es most = some m →
      kept.length ≤ m) ∧
      (es.all limitsExactly = true → limitAll es (some items.length) = some kept.length)
  | [], items, kept, _, h => by
    simp only [filterInTurn, Logged.gives_pure] at h
    subst h
    exact ⟨fun _ hmost m hm => hmost m hm, fun _ => rfl⟩
  | e :: es, items, kept, hlength, h => by
    simp only [filterInTurn, Logged.gives_bind] at h
    obtain ⟨passed, hpassed, hkept⟩ := h
    have hle : passed.length ≤ items.length := by
      simpa using (keepScored_sublist items hpassed).length_le
    obtain ⟨hmost, hexact⟩ := keepScored_limit hlength hpassed
    obtain ⟨hmost', hexact'⟩ := filterInTurn_limit es (Nat.le_trans hle hlength) hkept
    refine ⟨fun most hitems => hmost' (limitBy e most) (hmost most hitems), fun hall => ?_⟩
    rw [List.all_cons, Bool.and_eq_true] at hall
    rw [limitAll, List.foldl_cons, hexact hall.1]
    exact hexact' hall.2

/-! ### The strategies -/

/-- Whether what is left of a sequence by predicates is a part of it and as long as the static type
of the filter says. -/
structure LeftBy (predicates : List Expr) (items left : List Item) (clean cleanLeft : Prop) :
    Prop where
  sublist : left.Sublist items
  counts : ∀ σ : StaticType, Counts σ.occurrence σ.size items.length clean →
    Counts (filterType σ predicates).occurrence (filterType σ predicates).size left.length cleanLeft

theorem not_all_limitsExactly {es : List Expr} (hes : es ≠ [])
    (h : ∀ e ∈ es, e.isPositional = false) : es.all limitsExactly ≠ true := by
  cases es with
  | nil => exact absurd rfl hes
  | cons e es => simp [(limitBy_of_not_positional (h e List.mem_cons_self)).2]

theorem leftBy_nil {items : List Item} {p : Prop} : LeftBy [] items items p p :=
  ⟨.refl _, fun _ hσ => hσ.filter (Nat.le_refl _) (fun m hm => (hσ.le_size m hm).1)
    fun hclean s hs _ => congrArg some (hσ.eq_size hclean s hs).symm⟩

theorem Cursor.select_leftBy {predicates : List Expr} {judge : Judgement} (c : Cursor)
    {scoring : Bool} (hsome : predicates ≠ []) (hnot : ∀ e ∈ predicates, e.isPositional = false) :
    LeftBy predicates (delivered (c.deliveries scoring))
      (delivered ((c.select judge 0).deliveries scoring)) (Clean (c.deliveries scoring))
      (Clean ((c.select judge 0).deliveries scoring)) := by
  have hsublist : (delivered ((c.select judge 0).deliveries scoring)).Sublist _ :=
    c.delivered_select 0
  refine ⟨hsublist, fun σ hσ => hσ.filter hsublist.length_le (fun m hm => ?_) fun _ s _ hall => ?_⟩
  · rw [limitAll_of_not_positional hnot] at hm
    exact Nat.le_trans hsublist.length_le (hσ.le_size m hm).1
  · exact absurd hall (not_all_limitsExactly hsome hnot)

/-- A window with predicates behind it that are not positional leaves no more than the window does,
and alone as many. -/
theorem Cursor.window_leftBy {w : Window} {τ : StaticType} {l : Option Location} {rest : List Expr}
    {judge : Judgement} (hjudge : ∀ scoring p item, judge scoring p item =
      meanTest call (env.focusOn none scoring p item) (rest.length + 1) .zero
        (⟨.position w, τ, l⟩ :: rest)) (hrest : ∀ e ∈ rest, e.isPositional = false) (c :
      Cursor) {scoring : Bool} :
      LeftBy (⟨.position w, τ, l⟩ :: rest) (delivered (c.deliveries scoring))
        (delivered ((c.window w judge 0).deliveries scoring)) (Clean (c.deliveries scoring))
        (Clean ((c.window w judge 0).deliveries scoring)) := by
  have hwindowed : Windowed w judge 0 (c.deliveries scoring)
    ((c.window w judge 0).deliveries scoring) := c.windowed 0
  have hlength := hwindowed.sublist.length_le
  rw [Window.length_part, Nat.zero_add, Nat.max_eq_right (Nat.zero_le _)] at hlength
  have hsublist := hwindowed.sublist.trans (w.part_sublist 0 _)
  have hlimit (most : Option Nat) : limitAll (⟨.position w, τ, l⟩ :: rest) most = limitBy
      ⟨.position w, τ, l⟩ most :=
    limitAll_of_not_positional hrest _
  refine ⟨hsublist, fun σ hσ => hσ.filter hsublist.length_le
    (fun m hm => ?_) fun hclean s hs hall => ?_⟩
  · rw [hlimit] at hm
    have hbound := (limitBy_window (e := ⟨.position w, τ, l⟩) rfl rfl).1 σ.size
      (fun m hm => (hσ.le_size m hm).1) m hm
    exact Nat.le_trans hlength hbound
  · -- no predicate but the window, which passes all items that it sees
    obtain rfl : rest = [] := by
      by_contra hsome
      exact not_all_limitsExactly hsome hrest (Bool.and_eq_true_iff.mp hall).2
    have hpasses : ∀ scoring p item verdict, w.contains p = true →
      (judge scoring p item).Gives verdict →
        verdict.isSome := by
      intro scoring p item verdict hp h
      rw [hjudge] at h
      simp only [meanTest, Expr.test_position, hp, if_true, pure_bind, Logged.gives_pure] at h
      exact h ▸ rfl
    obtain ⟨hitems, hseen⟩ := hwindowed.clean hpasses hclean
    have hs' := hσ.le_size s hs
    rw [hlimit, (limitBy_window (e := ⟨.position w, τ, l⟩) rfl rfl).2 hs'.2, hitems,
      Window.length_part]
    congr 1
    rcases hseen with hseen | hseen
    · rw [hσ.eq_size hseen s hs]
      omega
    · omega

theorem filterInTurn_leftBy {predicates : List Expr} {items : List Item}
    {kept : List (Item × Number)} {p q : Prop} (hp : p) (hlength : items.length ≤ memoryLimit)
    (hkept : (filterInTurn call env (items.map fun item => (item, .zero)) predicates).Gives kept) :
    LeftBy predicates items (itemsOf kept) p q := by
  have hsublist : (itemsOf kept).Sublist items := by
    simpa [itemsOf, Function.comp_def] using filterInTurn_sublist predicates hkept
  obtain ⟨hmost, hexact⟩ := filterInTurn_limit predicates (by rwa [List.length_map]) hkept
  simp only [List.length_map] at hmost hexact
  refine ⟨hsublist, fun σ hσ => hσ.filter hsublist.length_le (fun m hm => ?_) fun _ s hs hall => ?_⟩
  · rw [List.length_map]
    exact hmost σ.size (fun m hm => (hσ.le_size m hm).1) m hm
  · rw [← hσ.eq_size hp s hs, List.length_map]
    exact hexact hall

/-- A filter delivers a part of the items that its input delivers, and as many as its static type
says if the input is as many as its own says. -/
theorem Cursor.filterBy_counts {predicates : List Expr} {c c' : Cursor}
    (h : (c.filterBy env predicates (fun env => meanTest call env predicates.length .zero predicates)
      (fun items => filterInTurn call env items predicates)).Gives c') (scoring : Bool) :
    ∃ scoring', LeftBy predicates (delivered (c.deliveries scoring'))
      (delivered (c'.deliveries scoring))
      (Clean (c.deliveries scoring')) (Clean (c'.deliveries scoring)) := by
  unfold filterBy at h
  simp only [Logged.gives_ite, Logged.gives_pure] at h
  obtain ⟨hempty, rfl⟩ | ⟨hempty, ⟨hpositional, rfl⟩ | ⟨-, h⟩⟩ := h
  · obtain rfl := List.isEmpty_iff.mp hempty
    exact ⟨_, leftBy_nil⟩
  · exact ⟨_, c.select_leftBy (by simpa using hempty) (by simpa using hpositional)⟩
  split at h
  · next w hw =>
    obtain rfl := Logged.gives_pure.mp h
    obtain ⟨τ, l, rest, rfl, hrest⟩ := leadingWindow?_some hw
    exact ⟨_, c.window_leftBy (fun _ _ _ => rfl) hrest⟩
  · simp only [Logged.gives_bind, Logged.gives_pure] at h
    obtain ⟨items, hitems, kept, hkept, rfl⟩ := h
    obtain ⟨hdelivered, hclean, hlength⟩ := Cursor.drain_delivered hitems
    have hkeptItems : (meanScores env.scoring predicates.length kept).map Prod.fst =
        itemsOf kept := by
      simp [meanScores, itemsOf, Function.comp_def]
    refine ⟨env.scoring, ?_⟩
    rw [Cursor.delivered_ofScored, hkeptItems, hdelivered]
    exact filterInTurn_leftBy hclean hlength hkept

end

end TreeQuery
