import TreeQuery.Compile.Comparison
import TreeQuery.Proofs.Atomic.Compare
import TreeQuery.Proofs.Check.Resolution
import TreeQuery.Proofs.Number.Exact
/-!
# What positional tests are recognized as

A comparison of the position with a number is recognized as a window of positions, before any
position is known. A number is ordered with positions by its whole part and by whether it has a
fraction (`Number.compare?_ofInt`), and the bounds of a window are made of these. So the window
holds the positions at which the comparison is true (`Window.compare?_holdsAt`), also when it is
evaluated (`recognizePosition_agrees`). What is not a number is recognized as a test that no
position passes, whatever the operator is; but it is unequal to every position
(`recognizePosition_unequal`).
-/

namespace TreeQuery

def PositionTest.holdsAt : PositionTest → Nat → Bool
  | .within w, position => w.contains position
  | .never, _ => false

namespace Number

/-- How a position is ordered with a number, told by the whole part of the number and its
fraction. -/
def placeOf (position : Nat) (x : Number) : Ordering :=
  if x.isNegative then .gt
  else
    match x.wholePart? with
    | some n => if n < position then .gt else if position = n ∧
      x.isIntegral = true then .eq else .lt
    | none => .lt

theorem wholePart?_finite (negative : Bool) (m : Nat) (e : Int) :
    (finite negative m e).wholePart? = some (m * 2 ^ e.toNat / 2 ^ (-e).toNat) := by
  simp only [wholePart?, powerOfTwo_eq, Option.some.injEq]
  split
  · next he => rw [show (-e).toNat = 0 by omega, Nat.pow_zero, Nat.div_one]; rfl
  · next he => rw [show e.toNat = 0 by omega, Nat.pow_zero, Nat.mul_one]; rfl

theorem isIntegral_finite (negative : Bool) (m : Nat) (e : Int) :
    (finite negative m e).isIntegral = true ↔ 2 ^ (-e).toNat ∣ m * 2 ^ e.toNat := by
  simp only [isIntegral, powerOfTwo_eq, Bool.or_eq_true, decide_eq_true_eq, beq_iff_eq,
    Nat.dvd_iff_mod_eq_zero]
  by_cases he : 0 ≤ e
  · simp only [he, true_or, true_iff]
    rw [show (-e).toNat = 0 by omega, Nat.pow_zero, Nat.mod_one]
  · simp only [he, false_or]
    rw [show e.toNat = 0 by omega, Nat.pow_zero, Nat.mul_one]
    rfl

theorem compare_quotient {p m d : Nat} (hd : 0 < d) :
    compare (p * d) m = if m / d < p then .gt else if p = m / d ∧ d ∣ m then .eq else .lt := by
  split
  · next h => exact Nat.compare_eq_gt.mpr ((Nat.div_lt_iff_lt_mul hd).mp h)
  split
  · next h =>
    obtain ⟨rfl, hdvd⟩ := h
    exact Nat.compare_eq_eq.mpr (Nat.div_mul_cancel hdvd)
  · next hle hne =>
    have hle : p * d ≤ m := (Nat.le_div_iff_mul_le hd).mp (Nat.not_lt.mp hle)
    refine Nat.compare_eq_lt.mpr (Nat.lt_of_le_of_ne hle fun heq => hne ⟨?_, p, ?_⟩)
    · rw [← heq, Nat.mul_div_cancel p hd]
    · rw [← heq, Nat.mul_comm]

theorem compare?_unsigned {x : Number} {negative : Bool} {m : Nat} {e : Int}
    (h : (finite negative m e).isNegative = false) :
    x.compare? (finite negative m e) = x.compare? (finite false m e) := by
  cases negative with
  | false => rfl
  | true =>
    obtain rfl : m = 0 := by simpa [isNegative] using h
    cases x <;> simp [compare?, scaled]

theorem compare?_negative {x y : Number} {n : Nat} (hx : x.IsExactly n) (hy : y.isNegative = true) :
    x.compare? y = some .gt := by
  obtain ⟨k, f, rfl, -⟩ := hx
  cases y with
  | nan => cases hy
  | infinite negative =>
    obtain rfl : negative = true := hy
    rfl
  | finite negative m e =>
    obtain ⟨rfl, hm⟩ : negative = true ∧ m ≠ 0 := by simpa [isNegative] using hy
    simp only [compare?, scaled_false, Option.some.injEq]
    have hpos : 0 < m * 2 ^ (e - min f e).toNat :=
      Nat.mul_pos (Nat.pos_of_ne_zero hm) (Nat.pow_pos (by decide))
    rw [Std.compare_eq_gt, show scaled true m e (min f e) = -scaled false m e
      (min f e) from rfl, scaled_false]
    omega

theorem compare?_ofInt {position : Nat} (hp : position ≤ memoryLimit) {x : Number}
    (hx : x.isNaN = false) :
    (Format.double.ofInt position).compare? x = some (placeOf position x) := by
  have hexact := Format.ofInt_exact hp
  unfold placeOf
  split
  · next hnegative => exact compare?_negative hexact hnegative
  next hnegative =>
  cases x with
  | nan => cases hx
  | infinite negative =>
    obtain rfl : negative = false := Bool.not_eq_true _ ▸ hnegative
    obtain ⟨m, e, heq, -⟩ := hexact
    rw [heq]
    rfl
  | finite negative m e =>
    rw [compare?_unsigned (Bool.not_eq_true _ ▸ hnegative), compare?_finite hexact,
      compare_quotient (Nat.pow_pos (by decide))]
    simp only [wholePart?_finite, isIntegral_finite]

end Number

namespace Window

open Number (placeOf)

variable {position : Nat} {x : Number}

theorem holdsAt_between {first last : Nat} (h1 : 1 ≤ position) (hlast : last ≤ noEnd) :
    (between first last).holdsAt position = decide (first ≤ position ∧ position ≤ last) := by
  unfold between between?
  split
  · next w h =>
    split at h
    · obtain rfl := Option.some.inj h
      simp only [PositionTest.holdsAt, contains, decide_eq_decide]
      omega
    · cases h
  · next h =>
    split at h
    · cases h
    · next hempty =>
      rw [PositionTest.holdsAt, eq_comm, decide_eq_false_iff_not]
      omega

theorem le_capPosition_iff {n : Nat} (hp : position ≤ memoryLimit) :
    position ≤ capPosition n ↔ position ≤ n := by
  have hlimit : memoryLimit < noEnd - 1 := by decide
  unfold capPosition
  split <;> omega

theorem capPosition_le_iff {n : Nat} (hp : position ≤ memoryLimit) :
    capPosition n ≤ position ↔ n ≤ position := by
  have hlimit : memoryLimit < noEnd - 1 := by decide
  unfold capPosition
  split <;> omega

theorem capPosition_le_noEnd (n : Nat) : capPosition n ≤ noEnd := by
  unfold capPosition
  split <;> omega

theorem le_floorPosition_iff (h1 : 1 ≤ position) (hp : position ≤ memoryLimit) :
    position ≤ floorPosition x ↔ placeOf position x ≠ .gt := by
  have hlimit : memoryLimit < noEnd - 1 := by decide
  unfold floorPosition placeOf
  split
  · simp only [ne_eq, not_true_eq_false, iff_false]
    omega
  cases x.wholePart? with
  | none => exact iff_of_true (by dsimp only; omega) nofun
  | some n =>
    simp only [le_capPosition_iff hp]
    grind

theorem ceilPosition_le_iff (hp : position ≤ memoryLimit) :
    ceilPosition x ≤ position ↔ placeOf position x ≠ .lt := by
  have hlimit : memoryLimit < noEnd - 1 := by decide
  unfold ceilPosition placeOf
  split
  · simp
  cases x.wholePart? with
  | none => exact iff_of_false (by dsimp only; omega) (fun h => h rfl)
  | some n =>
    simp only [capPosition_le_iff hp]
    grind

theorem floorPosition_le_noEnd (x : Number) : floorPosition x ≤ noEnd := by
  unfold floorPosition
  split
  · exact Nat.zero_le _
  split
  · exact capPosition_le_noEnd _
  · exact Nat.sub_le ..

theorem ceilPosition_le_noEnd (x : Number) : ceilPosition x ≤ noEnd := by
  unfold ceilPosition
  split
  · exact Nat.zero_le _
  split
  · exact capPosition_le_noEnd _
  · exact Nat.sub_le ..

theorem holdsAt_single (h1 : 1 ≤ position) (hp : position ≤ memoryLimit) (n : Nat) :
    (single (capPosition n)).holdsAt position = decide (position = n) := by
  rw [single, holdsAt_between h1 (capPosition_le_noEnd n), decide_eq_decide, capPosition_le_iff hp,
    le_capPosition_iff hp]
  omega

theorem atNumber_holdsAt (h1 : 1 ≤ position) (hp : position ≤ memoryLimit) (x : Number) :
    (atNumber x).holdsAt position = (placeOf position x == .eq) := by
  unfold atNumber placeOf
  by_cases hnegative : x.isNegative = true
  · simp [hnegative, PositionTest.holdsAt]
  by_cases hintegral : x.isIntegral = true
  · simp only [hnegative, hintegral, Bool.not_false, Bool.and_true, if_true]
    cases x.wholePart? with
    | none => rfl
    | some n =>
      have hsingle := holdsAt_single h1 hp n
      grind [PositionTest.holdsAt]
  · simp only [hintegral, Bool.false_and, Bool.false_eq_true, if_false, and_false,
      PositionTest.holdsAt]
    grind

/-- The test that a comparison with a number is recognized as holds at the positions that are
ordered so with the number. -/
theorem compare?_holdsAt {op : CompareOp} {test : PositionTest} (h1 : 1 ≤ position)
    (hp : position ≤ memoryLimit) (hx : x.isNaN = false) (h : compare? op x = some test) :
    test.holdsAt position = op.holds (placeOf position x) := by
  have hlimit : memoryLimit < noEnd := by decide
  have hfloor := le_floorPosition_iff (x := x) h1 hp
  have hceil := ceilPosition_le_iff (x := x) hp
  have := floorPosition_le_noEnd x
  have := ceilPosition_le_noEnd x
  simp only [compare?, hx, Bool.false_eq_true, if_false] at h
  cases op <;> simp only [Option.some.injEq, reduceCtorEq] at h <;> subst h <;> rw [CompareOp.holds]
  case eq => exact atNumber_holdsAt h1 hp x
  case lt =>
    split
    · rw [PositionTest.holdsAt]
      grind
    · rw [holdsAt_between h1 (by omega)]
      grind
  case le =>
    rw [holdsAt_between h1 (by omega)]
    grind
  case gt =>
    rw [addUpTo, holdsAt_between h1 (Nat.le_refl noEnd)]
    grind
  case ge =>
    rw [holdsAt_between h1 (Nat.le_refl noEnd)]
    grind

end Window

/-! ### Evaluation -/

section

variable {call : Caller} {env : Env} {e left right : Expr} {op : CompareOp} {test : PositionTest}

theorem Expr.value_of_ofList {items : List Item}
    (h : (e.form.iterate call env e.location).Gives (Cursor.ofList items))
    (hlength : items.length ≤ memoryLimit) : (e.value call env).Gives items := by
  refine Expr.value_iff_drained.mpr (Logged.gives_bind.mpr ⟨Cursor.ofList items, ?_, ?_⟩)
  · obtain ⟨form, τ, l⟩ := e
    rw [iterate]
    exact Logged.gives_locate.mpr h
  · exact Cursor.drain_iff_clean.mpr
      ⟨Cursor.clean_ofList items, Cursor.delivered_ofList items, hlength⟩

theorem Expr.value_position (he : e.isCallOf .position = true)
    (hitem : env.focus.item.isSome = true) (hp : env.focus.position ≤ memoryLimit) :
    (e.value call env).Gives [.atomic (.integer env.focus.position)] := by
  obtain ⟨form, τ, l⟩ := e
  cases form <;> simp only [isCallOf, Bool.false_eq_true] at he
  next f args =>
    obtain rfl := beq_iff_eq.mp he
    obtain ⟨item, hitem⟩ := Option.isSome_iff_exists.mp hitem
    have hposition : env.contextPosition.Gives env.focus.position := by
      rw [Env.contextPosition, hitem]
      rfl
    have hinteger : min (env.focus.position : Int) Atomic.maxInteger = env.focus.position := by
      have hlimit : (memoryLimit : Int) ≤ Atomic.maxInteger := by decide
      omega
    refine Expr.value_of_ofList ?_ (Nat.pow_pos (by decide))
    rw [← hinteger, Form.iterate]
    cases args <;> exact Logged.gives_map.mpr ⟨_, hposition, rfl⟩

theorem Expr.eq_of_number? {x : Number} (he : e.number? = some x) :
    ∃ v τ l, e = ⟨.literal [v], τ, l⟩ ∧ v.number? = some x := by
  obtain ⟨form, τ, l⟩ := e
  cases form <;> simp only [number?, reduceCtorEq] at he
  next values =>
    match values, he with
    | [v], he => exact ⟨v, τ, l, rfl, he⟩

theorem Expr.value_number {x : Number} (he : e.number? = some x) :
    ∃ v : Atomic, v.number? = some x ∧ (e.value call env).Gives [.atomic v] := by
  obtain ⟨v, τ, l, rfl, hv⟩ := Expr.eq_of_number? he
  exact ⟨v, hv, Expr.value_literal.mpr ⟨Nat.pow_pos (by decide), rfl⟩⟩

theorem compareAtomics_numbers {a b : Atomic} {holds : Bool} (ha : a.isNumeric = true)
    (hb : b.isNumeric = true) (h : Atomic.compare op a b = .ok holds) (style : CompareStyle) :
    compareAtomics style op [a] [b] = .ok [.atomic (.boolean holds)] := by
  cases style with
  | general =>
    have halign : Atomic.alignPair a b = .ok (a, b) := by
      cases a <;> cases b <;> first | rfl | contradiction
    cases holds <;> simp [compareAtomics, compareGeneral, anyTest, Atomic.comparePair, halign, h,
      bind, Except.bind, Except.map]
  | value =>
    have htyped {v : Atomic} (hv : v.isNumeric = true) : untypedAsString v = v := by
      cases v <;> first | rfl | contradiction
    simp only [compareAtomics, htyped ha, htyped hb, h, Except.map]

theorem Expr.value_comparison {a b : Atomic} {holds : Bool} {style : CompareStyle} {τ : StaticType}
    {l : Option Location} (hleft : (left.value call env).Gives [.atomic a])
    (hright : (right.value call env).Gives [.atomic b]) (ha : a.isNumeric = true)
    (hb : b.isNumeric = true) (h : Atomic.compare op a b = .ok holds) :
    (Expr.value call env ⟨.comparison style op left right, τ, l⟩).Gives
      [.atomic (.boolean holds)] := by
  refine Expr.value_of_ofList ?_ (Nat.pow_pos (by decide))
  simp only [Form.iterate, Logged.gives_bind, Logged.gives_lift, Logged.gives_map]
  exact ⟨_, hleft, [a], rfl, _, hright, [b], rfl, _, compareAtomics_numbers ha hb h style, rfl⟩

theorem CompareOp.swap_ne {op : CompareOp} (h : op ≠ .ne) : op.swap ≠ .ne := by
  cases op <;> first | exact h | exact nofun

theorem Atomic.isNumeric_of_number? {v : Atomic} {x : Number} (h : v.number? = some x) :
    v.isNumeric = true := by
  cases v <;> first | rfl | contradiction

theorem Expr.test_number {x : Number} (he : e.number? = some x) :
    (e.test call env).Gives (if x.same (Format.double.ofInt env.focus.position) then some .zero
      else none) := by
  obtain ⟨v, τ, l, rfl, hv⟩ := Expr.eq_of_number? he
  have hdecider : (Cursor.ofList [.atomic v]).decider env.scoring l = pure (some (.atomic v)) := rfl
  have htruth : (Cursor.ofList [.atomic v]).predicateTruth env.scoring l env.focus.position =
      pure (x.same (Format.double.ofInt env.focus.position)) := by
    rw [Cursor.predicateTruth, hdecider, Logged.pure_bind]
    simp only [hv]
  simp only [test, Form.iterate, Logged.gives_bind, Logged.gives_locate, Logged.gives_pure]
  exact ⟨_, rfl, _, by rw [List.map_singleton, htruth]; rfl, rfl⟩

theorem same_ofInt_position {position : Nat} (h1 : 1 ≤ position) (hp : position ≤ memoryLimit)
    (x : Number) :
    x.same (Format.double.ofInt position) = (Window.atNumber x).holdsAt position := by
  rw [Window.atNumber_holdsAt h1 hp, Number.same,
    Number.compare?_swap (Format.double.ofInt position) x]
  by_cases hx : x.isNaN = true
  · obtain rfl : x = .nan := by cases x <;> first | rfl | contradiction
    rw [Number.compare?_eq_none_iff.mpr (.inr hx)]
    rfl
  · rw [Number.compare?_ofInt hp (Bool.not_eq_true _ ▸ hx)]
    cases Number.placeOf position x <;> rfl

theorem compare_position {position : Nat} (h1 : 1 ≤ position) (hp : position ≤ memoryLimit)
    {v : Atomic} {x : Number} (hv : v.number? = some x) (hop : op ≠ .ne)
    (h : Window.compare? op x = some test) :
    Atomic.compare op (.integer position) v = .ok (test.holdsAt position) := by
  have hposition : (Atomic.integer position).number? = some (Format.double.ofInt position) := rfl
  simp only [Atomic.compare, hposition, hv]
  by_cases hx : x.isNaN = true
  · obtain rfl : PositionTest.never = test := by
      simpa only [Window.compare?, hx, if_true, Option.some.injEq] using h
    rw [Number.compare?_eq_none_iff.mpr (.inr hx), PositionTest.holdsAt,
      beq_eq_false_iff_ne.mpr hop]
  · rw [Bool.not_eq_true] at hx
    rw [Number.compare?_ofInt hp hx, Window.compare?_holdsAt h1 hp hx h]

theorem Expr.value_recognized {style : CompareStyle} {τ : StaticType} {l : Option Location}
    (hitem : env.focus.item.isSome = true) (h1 : 1 ≤ env.focus.position)
    (hp : env.focus.position ≤ memoryLimit) (hop : op ≠ .ne)
    (h : recognizePosition op left right = some test) :
    (Expr.value call env ⟨.comparison style op left right, τ, l⟩).Gives
      [.atomic (.boolean (test.holdsAt env.focus.position))] := by
  unfold recognizePosition at h
  split at h
  · next hleft =>
    obtain ⟨x, hx, h⟩ := Option.bind_eq_some_iff.mp h
    obtain ⟨v, hv, hright⟩ := Expr.value_number hx
    exact Expr.value_comparison (Expr.value_position hleft hitem hp) hright rfl
      (Atomic.isNumeric_of_number? hv)
      (compare_position h1 hp hv hop h)
  split at h
  · next hright =>
    obtain ⟨x, hx, h⟩ := Option.bind_eq_some_iff.mp h
    obtain ⟨v, hv, hleft⟩ := Expr.value_number hx
    have hswap := Atomic.compare_swap (compare_position h1 hp hv (CompareOp.swap_ne hop) h)
    rw [CompareOp.swap_swap] at hswap
    exact Expr.value_comparison hleft (Expr.value_position hright hitem hp)
      (Atomic.isNumeric_of_number? hv) rfl hswap
  · cases h

/-- Of the comparisons that ask for inequality, only the one with what is not a number is
recognized. -/
theorem recognizePosition_ne (h : recognizePosition .ne left right = some test) :
    test = .never ∧ ∃ x : Number, x.isNaN = true ∧
    (left.number? = some x ∨ right.number? = some x) := by
  have never {x : Number} (h : Window.compare? .ne x = some test) : test = .never ∧
      x.isNaN = true := by
    simp only [Window.compare?] at h
    split at h
    · next hx => exact ⟨(Option.some.inj h).symm, hx⟩
    · cases h
  unfold recognizePosition at h
  split at h
  · obtain ⟨x, hx, h⟩ := Option.bind_eq_some_iff.mp h
    exact ⟨(never h).1, x, (never h).2, .inr hx⟩
  split at h
  · obtain ⟨x, hx, h⟩ := Option.bind_eq_some_iff.mp h
    exact ⟨(never h).1, x, (never h).2, .inl hx⟩
  · cases h

end

/-- A comparison of the position with a number, on either side, is true at the positions that pass
the test it is recognized as, and the predicate of a number alone holds at the positions that pass
the test for it. Left out is inequality that is recognized as a test that no position passes, which
happens for what is not a number (`recognizePosition_ne`), and wrongly
(`recognizePosition_unequal`). -/
theorem recognizePosition_agrees (call : Caller) (env : Env) (hitem : env.focus.item.isSome = true)
    (h1 : 1 ≤ env.focus.position) (hlimit : env.focus.position < 2 ^ 53) :
    (∀ (style : CompareStyle) (op : CompareOp) (left right : Expr) (test : PositionTest)
      (τ : StaticType) (l : Option Location),
      recognizePosition op left right = some test → (op = .ne → test ≠ .never) →
      (Expr.value call env ⟨.comparison style op left right, τ, l⟩).Gives
        [.atomic (.boolean (test.holdsAt env.focus.position))]) ∧
      ∀ (e : Expr) (x : Number), e.number? = some x →
        (e.test call env).Gives (if (Window.atNumber x).holdsAt env.focus.position then some .zero
          else none) := by
  have hp : env.focus.position ≤ memoryLimit := Nat.le_of_lt hlimit
  refine ⟨fun style op left right test τ l h hne => ?_, fun e x he => ?_⟩
  · have hop : op ≠ .ne := by
      rintro rfl
      exact hne rfl (recognizePosition_ne h).1
    exact Expr.value_recognized hitem h1 hp hop h
  · rw [← same_ofInt_position h1 hp]
    exact Expr.test_number he

/-- Two and a half is above the position: true at the second position, and the test holds there and
not at the third. -/
theorem recognizePosition_agrees_fraction :
    let position : Expr := .call .position []
    let bound : Expr := .literal [.decimal (.finite false 5 (-1))]
    let env : Env := (Env.ofContext { forest := .empty false }).focusOn none false 2
      (.atomic (.boolean true))
    ∃ test, recognizePosition .gt bound position = some test ∧ test.holdsAt 2 = true ∧
      test.holdsAt 3 = false ∧
      ((Expr.of (.comparison .value .gt bound position)).value (callWithin 0) env).Gives
        [.atomic (.boolean (test.holdsAt env.focus.position))] ∧
          (bound.test (callWithin 0) env).Gives none := by
  intro position bound env
  have recognized : recognizePosition .gt bound position = some
    (Window.between 1 2) := by decide +kernel
  have fraction : (Window.atNumber (.finite false 5 (-1))).holdsAt 2 = false := by decide +kernel
  have agrees := recognizePosition_agrees (callWithin 0) env rfl (by decide) (by decide)
  refine ⟨_, recognized, by decide +kernel, by decide +kernel,
    agrees.1 .value .gt bound position _ _ _ recognized nofun, ?_⟩
  have htest := agrees.2 bound _ rfl
  rwa [show env.focus.position = 2 from rfl, fraction] at htest

/-- Every position is unequal to what is not a number, but the comparison is recognized as a test
that none passes. -/
theorem recognizePosition_unequal :
    let position : Expr := .call .position []
    let bound : Expr := .literal [.double .nan]
    let env : Env := (Env.ofContext { forest := .empty false }).focusOn none false 1
      (.atomic (.boolean true))
    recognizePosition .ne position bound = some .never ∧
      ((Expr.of (.comparison .general .ne position bound)).value (callWithin 0) env).Gives
        [.atomic (.boolean true)] :=
  ⟨by decide +kernel, rfl⟩

end TreeQuery
