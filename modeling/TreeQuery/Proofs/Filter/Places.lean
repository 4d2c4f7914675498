import TreeQuery.Proofs.Filter.Lengths
/-!
# Windows and the last position

Windows and calls of `last()` look at nothing but where an item stands. `keepInPlace` is what they
leave of elements of any kind, one predicate after the other, each numbering anew what is left. The
static type of a filter counts exactly these (`filteredType_size`), and evaluation keeps these
(`filterInTurn_places`).
-/

namespace TreeQuery

variable {α : Type}

/-- Whether a window or a call of `last()` holds at a position among `size` elements. -/
def Expr.holdsAt (e : Expr) (size position : Nat) : Bool :=
  e.isCallOf .last && position == size || e.window?.any (·.contains position)

/-- What windows and calls of `last()` leave one after the other, each counting the elements that it
finds. -/
def keepInPlace : List Expr → List α → List α
  | [], as => as
  | e :: es, as => keepInPlace es (keepPlaces (e.holdsAt as.length) 0 as)

theorem Expr.window?_of_isCallOf {e : Expr} {f : Builtin} (h : e.isCallOf f = true) :
    e.window? = none := by
  obtain ⟨form, τ, l⟩ := e
  cases form <;> first | rfl | cases h

theorem Expr.holdsAt_last {e : Expr} (h : e.isCallOf .last = true) (size : Nat) :
    e.holdsAt size = (· == size) := by
  funext position
  simp [holdsAt, h, window?_of_isCallOf h]

theorem Expr.holdsAt_window {e : Expr} {w : Window} (h : e.window? = some w) (size : Nat) :
    e.holdsAt size = w.contains := by
  have hlast : e.isCallOf .last = false := by
    cases hcall : e.isCallOf .last with
    | false => rfl
    | true => simp [window?_of_isCallOf hcall] at h
  funext position
  simp [holdsAt, hlast, h]

/-! ### How many are left -/

theorem limitBy_eq_length {e : Expr} (he : limitsExactly e = true) (as : List α)
    (hlength : as.length ≤ noEnd) :
    limitBy e (some as.length) = some (keepPlaces (e.holdsAt as.length) 0 as).length := by
  by_cases hlast : e.isCallOf .last = true
  · rw [Expr.holdsAt_last hlast, length_keepPlaces_last 0 as (Nat.zero_add _),
      limitBy, if_pos hlast]
  · simp only [Bool.not_eq_true] at hlast
    simp only [limitsExactly, hlast, Bool.false_or] at he
    obtain ⟨w, hw⟩ := Option.isSome_iff_exists.mp he
    rw [Expr.holdsAt_window hw, keepPlaces_window, Window.length_part,
      (limitBy_window hw hlast).2 hlength, Nat.zero_add, Nat.zero_max]

theorem limitAll_eq_length : (es : List Expr) → (∀ e ∈ es, limitsExactly e = true) → (as : List α) →
    as.length ≤ noEnd →
    limitAll es (some as.length) = some (keepInPlace es as).length
  | [], _, _, _ => rfl
  | e :: es, hes, as, hlength => by
    have hle := (keepPlaces_sublist (e.holdsAt as.length) 0 as).length_le
    rw [limitAll, List.foldl_cons, limitBy_eq_length (hes e List.mem_cons_self) as hlength]
    exact limitAll_eq_length es (fun e' he' => hes e' (List.mem_cons_of_mem _ he')) _
      (Nat.le_trans hle hlength)

/-- Where the size of the input is known, windows and calls of `last()` make a static type of the
size that their bounds leave. -/
theorem filteredType_of_limitsExactly {input : StaticType} {es : List Expr} {n m : Nat}
    (hsize : input.size = some n) (hes : ∀ e ∈ es, limitsExactly e = true)
    (hlimit : limitAll es (some n) = some m) :
    (filteredType input es = none ↔ m = 0) ∧ ∀ t, filteredType input es = some t →
    t.size = some m := by
  have hmost : es.foldl (fun most e => limitBy e most) input.size = some m := by
    rw [hsize]; exact hlimit
  have hexact : (input.size.isSome && es.all limitsExactly) = true := by
    rw [hsize, Option.isSome_some, Bool.true_and]
    exact List.all_eq_true.mpr hes
  simp only [filteredType, hmost, hexact, if_true, Option.some.injEq]
  by_cases hzero : m = 0
  · simp [hzero]
  · simp [hzero, StaticType.make, StaticType.sized]

/-! ### What evaluation keeps -/

section

variable {call : Caller} {env : Env}

theorem Expr.test_place {e : Expr} (he : limitsExactly e = true) {size position : Nat}
    (hsize : size ≤ memoryLimit) (hposition : position ≤ size) {scoring : Bool} {item : Item} :
    e.test call (env.focusOn (some size) scoring position item) = pure
      (if e.holdsAt size position then some .zero else none) := by
  by_cases hlast : e.isCallOf .last = true
  · rw [Expr.test_last hlast hsize hposition, holdsAt_last hlast]
  · simp only [Bool.not_eq_true] at hlast
    simp only [limitsExactly, hlast, Bool.false_or] at he
    obtain ⟨w, hw⟩ := Option.isSome_iff_exists.mp he
    obtain ⟨τ, l, rfl⟩ := Expr.eq_of_window? hw
    rw [Expr.test_position, holdsAt_window hw]

/-- Evaluation keeps the items that windows and calls of `last()` leave, without a failure and
without a trace. -/
theorem filterInTurn_places : (es : List Expr) → (∀ e ∈ es, limitsExactly e = true) →
    (items : List (Item × Number)) →
    items.length ≤ memoryLimit →
    ∃ kept, filterInTurn call env items es = pure kept ∧
    itemsOf kept = keepInPlace es (itemsOf items)
  | [], _, items, _ => ⟨items, rfl, rfl⟩
  | e :: es, hes, items, hlength => by
    have htest (item : Item) (position : Nat) (hle : position ≤ 0 + items.length) :
        e.test call (env.focusOn (some items.length) env.scoring position item) =
          pure (if e.holdsAt items.length position then some .zero else none) :=
      Expr.test_place (hes e List.mem_cons_self) hlength (by omega)
    have hle := (keepPlaces_sublist (e.holdsAt items.length) 0 items).length_le
    obtain ⟨kept, hrest, hitems⟩ :=
      filterInTurn_places es (fun e' he' => hes e' (List.mem_cons_of_mem _ he'))
      ((keepPlaces (e.holdsAt items.length) 0 items).map fun entry =>
        (entry.1, entry.2.add .double .zero))
      (by rw [List.length_map]; exact Nat.le_trans hle hlength)
    refine ⟨kept, ?_, ?_⟩
    · rw [filterInTurn, keepScored_places (e.holdsAt items.length) 0 items htest,
        Logged.pure_bind, hrest]
    · rw [hitems, keepInPlace, itemsOf, itemsOf, List.length_map, keepPlaces_map, List.map_map]
      rfl

end

/-- The size of a filter by windows and calls of `last()` over an input of known size is exact: the
filter has no static type exactly if these predicates, applied one after the other and each
numbering anew what is left, keep none of so many elements, and otherwise its size is the number of
elements they keep. As many items as memory holds are filtered alike by evaluation. -/
theorem filteredType_size (input : StaticType) (n : Nat) (es : List Expr)
    (hsize : input.size = some n) (hn : n ≤ noEnd)
    (hes : ∀ e ∈ es, e.isCallOf .last = true ∨ ∃ w, e.window? = some w) :
    (∀ {α : Type} (as : List α), as.length = n →
      (filteredType input es = none ↔ keepInPlace es as = []) ∧
        ∀ t, filteredType input es = some t → t.size = some (keepInPlace es as).length) ∧
    ∀ (call : Caller) (env : Env) (items : List (Item × Number)), items.length ≤ memoryLimit →
      ∃ kept, filterInTurn call env items es = pure kept ∧
      itemsOf kept = keepInPlace es (itemsOf items) := by
  have hes : ∀ e ∈ es, limitsExactly e = true := fun e he => by
    rcases hes e he with hlast | ⟨w, hw⟩
    · rw [limitsExactly, hlast, Bool.true_or]
    · rw [limitsExactly, hw, Option.isSome_some, Bool.or_true]
  refine ⟨fun as has => ?_, fun call env items hlength => filterInTurn_places es hes items hlength⟩
  subst has
  rw [← List.length_eq_zero_iff]
  exact filteredType_of_limitsExactly hsize hes (limitAll_eq_length es hes as hn)

/-- Of five items the window from the second to the third leaves two, and the last of these is
one. -/
theorem filteredType_size_last_of_window :
    let predicates : List Expr :=
    [.of (.position ⟨2, 3, by decide, by decide, by decide⟩), .call .last []]
    keepInPlace predicates [1, 2, 3, 4, 5] = [3] ∧
      ∀ t, filteredType (.sized (.atomic .integer) 5) predicates = some t →
      t.size = some 1 := by
  intro predicates
  have hplaces : ∀ e ∈ predicates, e.isCallOf .last = true ∨ ∃ w, e.window? = some w := by
    intro e he
    simp only [predicates, List.mem_cons, List.not_mem_nil, or_false] at he
    rcases he with rfl | rfl
    · exact .inr ⟨_, rfl⟩
    · exact .inl rfl
  have hsize :=
    (filteredType_size (.sized (.atomic .integer) 5) 5 predicates rfl (by decide) hplaces).1
    [1, 2, 3, 4, 5] rfl
  exact ⟨rfl, hsize.2⟩

end TreeQuery
