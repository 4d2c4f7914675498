import Mathlib.Algebra.Ring.Nat
import TreeQuery.Number.Rounding
import TreeQuery.Cursor.Basic
/-!
# Exact integers

Positions are compared with numbers as doubles. As many positions as memory has room for are doubles
exactly (`ofInt_exact`), so that equality of doubles tells them apart (`same_ofInt_iff`) and other
numbers are ordered with them by value (`compare?_finite`).
-/

namespace TreeQuery

namespace Number

/-- The number is a natural number, exactly: at every unit below its exponent it counts as many as
that number does. -/
def IsExactly (x : Number) (n : Nat) : Prop :=
  ∃ m e, x = .finite false m e ∧ ∀ u : Int, u ≤ e → u ≤ 0 →
    m * 2 ^ (e - u).toNat = n * 2 ^ (-u).toNat

theorem scaled_false (m : Nat) (e u : Int) :
    scaled false m e u = ((m * 2 ^ (e - u).toNat : Nat) : Int) := by
  simp only [scaled, powerOfTwo_eq, Bool.false_eq_true, if_false]
  rfl

theorem compare_mul {a b c : Nat} (hc : 0 < c) : compare (a * c) (b * c) = compare a b := by
  rcases Nat.lt_trichotomy a b with h | rfl | h
  · rw [Nat.compare_eq_lt.mpr h, Nat.compare_eq_lt.mpr (Nat.mul_lt_mul_of_pos_right h hc)]
  · rw [Nat.compare_eq_eq.mpr rfl, Nat.compare_eq_eq.mpr rfl]
  · rw [Nat.compare_eq_gt.mpr h, Nat.compare_eq_gt.mpr (Nat.mul_lt_mul_of_pos_right h hc)]

theorem compare_natCast (a b : Nat) : compare (a : Int) (b : Int) = compare a b := by
  rcases Nat.lt_trichotomy a b with h | rfl | h
  · rw [Nat.compare_eq_lt.mpr h, Std.compare_eq_lt.mpr (Int.ofNat_lt.mpr h)]
  · rw [Nat.compare_eq_eq.mpr rfl, Std.LawfulEqOrd.compare_eq_iff_eq.mpr rfl]
  · rw [Nat.compare_eq_gt.mpr h, Std.compare_eq_gt.mpr (Int.ofNat_lt.mpr h)]

theorem compare?_finite {x : Number} {a : Nat} (hx : x.IsExactly a) (n : Nat) (f : Int) :
    x.compare? (.finite false n f) = some (compare (a * 2 ^ (-f).toNat) (n * 2 ^ f.toNat)) := by
  obtain ⟨m, e, rfl, hm⟩ := hx
  simp only [compare?, scaled_false, compare_natCast, Option.some.injEq]
  generalize hu : min e f = u
  -- down to a unit that both numbers are whole in, and the natural number as well
  have lower {m : Nat} {e : Int} (h : u ≤ e) : m * 2 ^ (e - u).toNat * 2 ^ (u - min u 0).toNat = m *
      2 ^ (e - min u 0).toNat := by
    rw [Nat.mul_assoc, ← Nat.pow_add]
    congr 2
    omega
  have raise (m : Nat) {k l : Nat} (h : k = l + (min f 0 - min u 0).toNat) :
      m * 2 ^ k = m * 2 ^ l * 2 ^ (min f 0 - min u 0).toNat := by
    rw [Nat.mul_assoc, ← Nat.pow_add, h]
  rw [← compare_mul (Nat.pow_pos (n := (u - min u 0).toNat) (show 0 < 2 by decide)),
    lower (by omega), lower (by omega),
    hm (min u 0) (by omega) (by omega), raise a (l := (-f).toNat) (by omega),
    raise n (l := f.toNat) (by omega),
    compare_mul (Nat.pow_pos (by decide))]

theorem compare?_of_isExactly {x y : Number} {a b : Nat} (hx : x.IsExactly a) (hy : y.IsExactly b) :
    x.compare? y = some (compare a b) := by
  obtain ⟨n, f, rfl, hn⟩ := hy
  have hn := hn (min f 0) (by omega) (by omega)
  rw [show f - min f 0 = f.toNat by
    omega, show -min f 0 = (-f).toNat by omega, Int.toNat_natCast, Int.toNat_natCast] at hn
  rw [compare?_finite hx, hn, compare_mul (Nat.pow_pos (by decide))]

theorem same_iff_of_isExactly {x y : Number} {a b : Nat} (hx : x.IsExactly a) (hy : y.IsExactly b) :
    x.same y = true ↔ a = b := by
  rw [same, compare?_of_isExactly hx hy, beq_iff_eq, Option.some.injEq, Nat.compare_eq_eq]

end Number

namespace Format

theorem roundHalfEven_one (a : Nat) : roundHalfEven a 1 = a := by
  simp [roundHalfEven, Nat.mod_one]

theorem leadingExponent_one {n : Nat} (h : n ≠ 0) : leadingExponent n 1 = n.log2 := by
  have hscale : scaleFraction n 1 n.log2 = (n, 2 ^ n.log2) := by
    rw [scaleFraction, if_pos (Int.natCast_nonneg _), powerOfTwo_eq, Nat.one_mul]
    rfl
  have hlog : Nat.log2 1 = 0 := rfl
  simp only [leadingExponent, hlog, Int.natCast_zero, Int.sub_zero, hscale,
    if_pos (Nat.log2_self_le h)]

/-- A number of fewer binary digits than a double has is a double, with zeros behind its digits. -/
theorem round_exact {n : Nat} (h : n ≠ 0) (hlog : n.log2 ≤ 52) :
    double.round false n 1 = .finite false (n * 2 ^ (52 - n.log2)) (n.log2 - 52) := by
  have hexponent : Max.max (leadingExponent n 1 - (double.precision - 1)) double.minExponent =
      (n.log2 : Int) - 52 := by
    rw [leadingExponent_one h]
    simp only [double]
    omega
  have hscale : scaleFraction n 1 ((n.log2 : Int) - 52) = (n * 2 ^ (52 - n.log2), 1) := by
    unfold scaleFraction
    simp only [powerOfTwo_eq]
    split
    · rw [show n.log2 = 52 by omega, Nat.sub_self, Nat.pow_zero, Nat.mul_one]
      rfl
    · rw [show (-((n.log2 : Int) - 52)).toNat = 52 - n.log2 by omega]
      rfl
  have hdigits : n * 2 ^ (52 - n.log2) < 2 ^ 53 := by
    calc n * 2 ^ (52 - n.log2) < 2 ^ (n.log2 + 1) * 2 ^ (52 - n.log2) :=
          Nat.mul_lt_mul_of_pos_right Nat.lt_log2_self (Nat.pow_pos (by decide))
      _ = 2 ^ 53 := by rw [← Nat.pow_add]; congr 1; omega
  have hprecision : powerOfTwo double.precision = 2 ^ 53 := by decide
  have hmax : ¬double.maxExponent < (n.log2 : Int) - 52 := by
    simp only [double]
    omega
  rw [round, if_neg h]
  simp only [hexponent, hscale, roundHalfEven_one, hprecision, Nat.ne_of_lt hdigits,
    if_false, if_neg hmax]

/-- A number of items that memory has room for is a double. -/
theorem ofInt_exact {n : Nat} (h : n ≤ memoryLimit) : (double.ofInt n).IsExactly n := by
  have hlimit : memoryLimit = 2 ^ 53 := rfl
  have hround : double.ofInt n = double.round false n 1 := by
    rw [ofInt, Int.natAbs_natCast, decide_eq_false (by omega)]
  rw [hround]
  by_cases hzero : n = 0
  · subst hzero
    exact ⟨0, double.minExponent, rfl, fun u _ _ => by simp⟩
  by_cases hlast : n = 2 ^ 53
  · subst hlast
    refine ⟨2 ^ 52, 1, by decide, fun u hu hu' => ?_⟩
    rw [show (1 - u).toNat = 1 + (-u).toNat by omega, Nat.pow_add]
    omega
  · have hlog : n.log2 ≤ 52 := Nat.lt_succ_iff.mp ((Nat.log2_lt hzero).mpr (by omega))
    refine ⟨_, _, round_exact hzero hlog, fun u hu _ => ?_⟩
    rw [Nat.mul_assoc, ← Nat.pow_add]
    congr 2
    omega

end Format

theorem Number.same_ofInt_iff {a b : Nat} (ha : a ≤ memoryLimit) (hb : b ≤ memoryLimit) :
    (Format.double.ofInt a).same (Format.double.ofInt b) = true ↔ a = b :=
  same_iff_of_isExactly (Format.ofInt_exact ha) (Format.ofInt_exact hb)

end TreeQuery
