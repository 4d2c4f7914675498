import TreeQuery.Typing.StaticType
/-!
# Lengths under occurrence indicators

`Occurrence.AtMost` is the upper half of what an indicator says. The two bounds of a union, an
intersection and a product follow from those of the operands.
-/

namespace TreeQuery
namespace Occurrence

variable {a b o : Occurrence} {m n : Nat}

def AtMost (o : Occurrence) (n : Nat) : Prop := ∀ m, o.max = some m → n ≤ m

theorem AtMost.mono (h : o.AtMost n) (hm : m ≤ n) : o.AtMost m :=
  fun k hk => Nat.le_trans hm (h k hk)

theorem admits_iff : o.admits n = true ↔ o.min ≤ n ∧ o.AtMost n := by
  simp only [admits, AtMost, Bool.and_eq_true, decide_eq_true_eq]
  cases o.max <;> simp

theorem AtMost.of_instanceOf (h : a.instanceOf b = true) (ha : a.AtMost n) : b.AtMost n := by
  revert h ha
  cases a <;> cases b <;> simp [instanceOf, AtMost, min, max]
  omega

theorem min_le_of_instanceOf (h : a.instanceOf b = true) : b.min ≤ a.min := by
  simp only [instanceOf, Bool.and_eq_true, decide_eq_true_eq] at h
  exact h.1

theorem instanceOf_refl (a : Occurrence) : a.instanceOf a = true := by cases a <;> rfl

theorem instanceOf_trans {c : Occurrence} (h : a.instanceOf b = true) (h' : b.instanceOf c = true) :
    a.instanceOf c = true := by
  revert h h'
  cases a <;> cases b <;> cases c <;> decide

theorem atMost_ofSize (n : Nat) : (ofSize n).AtMost n := (admits_iff.mp (admits_ofSize n)).2

theorem min_ofSize_le (n : Nat) : (ofSize n).min ≤ n := (admits_iff.mp (admits_ofSize n)).1

theorem AtMost.of_le_ofSize (h : m ≤ n) : (ofSize n).AtMost m := (atMost_ofSize n).mono h

theorem ofSize_instanceOf (h : o.admits n = true) : (ofSize n).instanceOf o = true := by
  revert h
  match n with
  | 0 => cases o <;> decide
  | 1 => cases o <;> decide
  | n + 2 => cases o <;> simp [admits, instanceOf, ofSize, min, max]

/-! ### Union -/

theorem union_min_le_left : (a.union b).min ≤ a.min := by cases a <;> cases b <;> decide

theorem union_min_le_right : (a.union b).min ≤ b.min := by cases a <;> cases b <;> decide

theorem AtMost.union_left (h : a.AtMost n) : (a.union b).AtMost n :=
  h.of_instanceOf (by cases a <;> cases b <;> decide)

theorem AtMost.union_right (h : b.AtMost n) : (a.union b).AtMost n :=
  h.of_instanceOf (by cases a <;> cases b <;> decide)

/-! ### Intersection -/

theorem AtMost.intersect (ha : a.AtMost n) (hb : b.AtMost n) (h : a.intersect b = some o) :
    o.AtMost n := by
  revert ha hb h
  cases a <;> cases b <;> cases o <;> simp [Occurrence.intersect, ofBounds?, AtMost, min, max]
  omega

theorem intersect_min_le (ha : a.min ≤ n) (hb : b.min ≤ n) (h : a.intersect b = some o) :
    o.min ≤ n := by
  revert ha hb h
  cases a <;> cases b <;> cases o <;> simp [Occurrence.intersect, ofBounds?, min, max]

theorem intersect_instanceOf (h : a.intersect b = some o) : o.instanceOf b = true := by
  revert h
  cases a <;> cases b <;> cases o <;> decide

/-! ### Product -/

theorem multiply_min_le : (a.multiply b).min ≤ a.min * b.min := by cases a <;> cases b <;> decide

theorem multiply_max (h : (a.multiply b).max = some m) :
    a.max = some 0 ∨ b.max = some 0 ∨ ∃ x y, a.max = some x ∧ b.max = some y ∧ m = x * y := by
  revert h
  cases a <;> cases b <;> simp [multiply, ofBounds?, min, max, eq_comm]

@[simp] theorem one_multiply (b : Occurrence) : one.multiply b = b := by cases b <;> rfl

theorem AtMost.multiply {k : Nat} (ha : a.AtMost k) (hb : b.max ≠ some 0 ∨ n = 0)
    (hn : ∀ y, b.max = some y → n ≤ k * y) (hk : k = 0 → n = 0) : (a.multiply b).AtMost n := by
  intro m hm
  rcases multiply_max hm with h | h | ⟨x, y, hx, hy, rfl⟩
  · have := hk (Nat.le_zero.mp (ha 0 h))
    omega
  · have := hb.resolve_left (by simp [h])
    omega
  · exact Nat.le_trans (hn y hy) (Nat.mul_le_mul_right y (ha x hx))

end Occurrence
end TreeQuery
