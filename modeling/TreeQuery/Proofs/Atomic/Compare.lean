import TreeQuery.Atomic.Compare
/-!
# Comparisons

A comparison with its operands exchanged and its operator turned round has the same answer
(`Atomic.comparePair_swap`). A general comparison with an answer tells of pairs: one holds if it is
true (`compareGeneral_true`), and none does if it is false (`compareGeneral_false`). So a general
comparison that is false stays false with its operands exchanged, although the pairs are tried in
another order (`compareGeneral_swap_false`); one that is true may meet a pair that cannot be
compared first, but is never false then (`comparison_exchanged`).
-/

namespace TreeQuery

theorem Number.compare?_swap (x y : Number) : y.compare? x = (x.compare? y).map Ordering.swap := by
  cases x <;> cases y <;> simp only [compare?, Option.map_some, Option.map_none, Option.some.injEq]
  case infinite.infinite a b => cases a <;> cases b <;> rfl
  case infinite.finite a n m e => cases a <;> rfl
  case finite.infinite n m e a => cases a <;> rfl
  case finite.finite a m e b n f =>
    rw [Int.min_comm f e]
    exact Std.OrientedCmp.eq_swap

namespace Atomic

variable {op : CompareOp} {a b : Atomic} {r : Bool}

theorem compare_swap (h : compare op a b = .ok r) : compare op.swap b a = .ok r := by
  unfold compare at h ⊢
  cases ha : a.number? <;> cases hb : b.number? <;> simp only [ha, hb] at h ⊢
  case some.some x y =>
    rw [Number.compare?_swap]
    cases hxy : x.compare? y <;> simp only [hxy, Option.map_some, Option.map_none] at h ⊢
    · cases op <;> exact h
    · rwa [CompareOp.holds_swap]
  all_goals
    split at h
    · next x y =>
      cases op <;> simp only [CompareOp.swap, reduceCtorEq] at h ⊢
      · rwa [Bool.beq_comm]
      · rwa [bne_comm]
    · next hboolean =>
      cases hx : a.text? <;> cases hy : b.text? <;> simp only [hx, hy, reduceCtorEq] at h
      next x y =>
      split
      · next p q =>
        simp [text?] at hx
      · simp only [hx, hy]
        have hswap : Ord.compare y x = (Ord.compare x y).swap := Std.OrientedCmp.eq_swap
        rwa [hswap, CompareOp.holds_swap]

theorem compare_code {e : Error} (h : compare op a b = .error e) :
    e.code = ErrorCode.typeMismatch.name := by
  unfold compare at h
  split at h
  · cases h
  · split at h
    · split at h
      · cases h
      · cases h
      · obtain rfl := Except.error.inj h
        rfl
    · split at h
      · cases h
      · obtain rfl := Except.error.inj h
        rfl

theorem compare_swap_code :
    (compare op.swap b a).mapError Error.code = (compare op a b).mapError Error.code := by
  cases h : compare op a b with
  | ok r => rw [compare_swap h]
  | error e =>
    cases h' : compare op.swap b a with
    | ok r =>
      have hback := compare_swap h'
      rw [CompareOp.swap_swap, h] at hback
      cases hback
    | error e' => exact congrArg Except.error ((compare_code h').trans (compare_code h).symm)

theorem alignPair_swap {v w : Atomic} (h : alignPair a b = .ok (v, w)) :
    alignPair b a = .ok (w, v) := by
  have cast {x : Except Error Atomic} {f g : Atomic → Atomic × Atomic}
    (hfg : ∀ u, f u = (v, w) → g u = (w, v))
      (h : x.map f = .ok (v, w)) : x.map g = .ok (w, v) := by
    cases x with
    | error e => cases h
    | ok u => exact congrArg Except.ok (hfg u (Except.ok.inj h))
  have exchange : ∀ {x y : Atomic}, (x, y) = (v, w) → (y, x) = (w, v) := by
    rintro x y h
    cases h
    rfl
  cases a <;> cases b <;> simp only [alignPair] at h ⊢ <;>
    first
    | exact cast (fun u => exchange) h
    | exact congrArg Except.ok (exchange (Except.ok.inj h))

theorem comparePair_swap (h : comparePair op a b = .ok r) : comparePair op.swap b a = .ok r := by
  unfold comparePair at h ⊢
  cases hpair : alignPair a b with
  | error e => simp [hpair, bind, Except.bind] at h
  | ok pair =>
    rw [alignPair_swap hpair]
    rw [hpair] at h
    exact compare_swap h

end Atomic

/-! ### General comparisons -/

theorem anyTest_true {α : Type} {test : α → Except Error Bool} :
    {as : List α} → anyTest test as = .ok true →
    ∃ a ∈ as, test a = .ok true
  | [], h => by simp [anyTest] at h
  | a :: as, h => by
    simp only [anyTest] at h
    cases htest : test a with
    | error e => simp [htest, bind, Except.bind] at h
    | ok b =>
      simp only [htest, bind, Except.bind] at h
      cases b
      · obtain ⟨a', ha', htrue⟩ := anyTest_true h
        exact ⟨a', List.mem_cons_of_mem a ha', htrue⟩
      · exact ⟨a, List.mem_cons_self, htest⟩

theorem anyTest_false {α : Type} {test : α → Except Error Bool} :
    {as : List α} → anyTest test as = .ok false →
    ∀ a ∈ as, test a = .ok false
  | [], _ => by simp
  | a :: as, h => by
    simp only [anyTest] at h
    cases htest : test a with
    | error e => simp [htest, bind, Except.bind] at h
    | ok b =>
      simp only [htest, bind, Except.bind] at h
      cases b
      · exact List.forall_mem_cons.mpr ⟨htest, anyTest_false h⟩
      · cases h

theorem compareGeneral_true {op : CompareOp} {vs ws : List Atomic}
    (h : compareGeneral op vs ws = .ok true) :
    ∃ v ∈ vs, ∃ w ∈ ws, Atomic.comparePair op v w = .ok true := by
  obtain ⟨v, hv, h⟩ := anyTest_true h
  exact ⟨v, hv, anyTest_true h⟩

theorem compareGeneral_false {op : CompareOp} {vs ws : List Atomic}
    (h : compareGeneral op vs ws = .ok false) :
    ∀ v ∈ vs, ∀ w ∈ ws, Atomic.comparePair op v w = .ok false :=
  fun v hv => anyTest_false (anyTest_false h v hv)

theorem anyTest_eq_false {α : Type} {test : α → Except Error Bool} :
    {as : List α} → (∀ a ∈ as, test a = .ok false) →
    anyTest test as = .ok false
  | [], _ => rfl
  | a :: as, h => by
    rw [List.forall_mem_cons] at h
    simp [anyTest, h.1, bind, Except.bind, anyTest_eq_false h.2]

/-- A general comparison without a pair that holds has none when its operands are exchanged, and no
failure either. -/
theorem compareGeneral_swap_false {op : CompareOp} {vs ws : List Atomic}
    (h : compareGeneral op vs ws = .ok false) : compareGeneral op.swap ws vs = .ok false :=
  anyTest_eq_false fun w hw => anyTest_eq_false fun v hv =>
    Atomic.comparePair_swap (compareGeneral_false h v hv w hw)

/-- Exchanging the operands of a comparison and turning its operator round changes nothing: general
comparisons agree wherever both have an answer, and comparisons of two values have the same answer
or fail with the same code. -/
theorem comparison_exchanged (op : CompareOp) :
    (∀ (vs ws : List Atomic) (b c : Bool), compareGeneral op vs ws = .ok b →
      compareGeneral op.swap ws vs = .ok c → b = c) ∧
      ∀ v w : Atomic, (Atomic.compare op.swap w v).mapError Error.code =
      (Atomic.compare op v w).mapError Error.code := by
  refine ⟨fun vs ws b c hb hc => ?_, fun v w => Atomic.compare_swap_code⟩
  cases b with
  | false => exact Except.ok.inj ((compareGeneral_swap_false hb).symm.trans hc)
  | true =>
    cases c with
    | true => rfl
    | false =>
      have hfalse := compareGeneral_swap_false hc
      rw [CompareOp.swap_swap, hb] at hfalse
      cases hfalse

/-- What is not a number is like nothing, and an untyped value takes the type of the number beside
it, on either side. -/
theorem comparison_exchanged_untyped :
    ∃ b c, compareGeneral .lt [.double .nan, .untyped "9"] [.integer 10] = .ok b ∧
      compareGeneral .gt [.integer 10] [.double .nan, .untyped "9"] = .ok c ∧ b = c := by
  have hlt : compareGeneral .lt [.double .nan, .untyped "9"] [.integer 10] = .ok true := by rfl
  have hgt : compareGeneral .gt [.integer 10] [.double .nan, .untyped "9"] = .ok true := by rfl
  exact ⟨true, true, hlt, hgt, (comparison_exchanged .lt).1 _ _ _ _ hlt hgt⟩

end TreeQuery
