import Mathlib.Algebra.Ring.Nat
import TreeQuery.Proofs.Typing.Filters
/-!
# How many items there are

`Counts o size n complete` says that `n` items keep to an indicator and a size: they are never too
many, and if they are the complete sequence, never too few. Each way to build a static type from
others keeps to the lengths that the matching way to build a sequence gives.
-/

namespace TreeQuery

def productOf (a b : Option Nat) : Option Nat := do
  let x ← a
  let y ← b
  if x * y < Nat.pow 2 64 then some (x * y) else none

theorem productOf_eq_some {a b : Option Nat} {m : Nat} (h : productOf a b = some m) :
    ∃ x y, a = some x ∧ b = some y ∧ m = x * y ∧ m ≤ noEnd := by
  cases a with
  | none => cases h
  | some x =>
    cases b with
    | none => cases h
    | some y =>
      obtain ⟨hlt, hm⟩ :=
        Option.ite_none_right_eq_some.mp
        (show (if x * y < Nat.pow 2 64 then some (x * y) else none) = some m from h)
      obtain rfl := Option.some.inj hm
      exact ⟨x, y, rfl, rfl, rfl, Nat.le_sub_one_of_lt hlt⟩

/-- Whether `n` items, the whole of a sequence if `complete` holds, keep to an indicator and a
size. -/
structure Counts (o : Occurrence) (size : Option Nat) (n : Nat) (complete : Prop) : Prop where
  atMost : o.AtMost n
  le_size : ∀ m, size = some m → n ≤ m ∧ m ≤ noEnd
  min_le : complete → o.min ≤ n
  eq_size : complete → ∀ m, size = some m → n = m

namespace Counts

variable {o o' : Occurrence} {size size' : Option Nat} {n k : Nat} {p q : Prop}

theorem imp (h : Counts o size n p) (hpq : q → p) : Counts o size n q :=
  ⟨h.atMost, h.le_size, fun hq => h.min_le (hpq hq), fun hq => h.eq_size (hpq hq)⟩

theorem admits (h : Counts o size n True) : o.admits n = true :=
  Occurrence.admits_iff.mpr ⟨h.min_le trivial, h.atMost⟩

/-! ### Static types -/

theorem of (i : ItemType) (hmax : o.AtMost n) (hmin : p → o.min ≤ n) :
    Counts (StaticType.of i o).occurrence (StaticType.of i o).size n p := by
  refine ⟨hmax, ?_, hmin, ?_⟩
  · intro m hm
    cases o <;> simp [StaticType.of] at hm <;> subst hm
    · exact ⟨hmax 0 rfl, Nat.zero_le _⟩
    · exact ⟨hmax 1 rfl, Expr.one_le_noEnd⟩
  · intro hp m hm
    cases o <;> simp [StaticType.of] at hm <;> subst hm
    · exact Nat.le_zero.mp (hmax 0 rfl)
    · exact Nat.le_antisymm (hmax 1 rfl) (hmin hp)

theorem sized (i : ItemType) {m : Nat} (hle : n ≤ m) (hend : m ≤ noEnd) (heq : p → n = m) :
    Counts (StaticType.sized i m).occurrence (StaticType.sized i m).size n p where
  atMost := Occurrence.AtMost.of_le_ofSize hle
  le_size _ hm' := Option.some.inj hm' ▸ ⟨hle, hend⟩
  min_le hp := heq hp ▸ Occurrence.min_ofSize_le m
  eq_size hp _ hm' := Option.some.inj hm' ▸ heq hp

theorem make (i : ItemType) (h : Counts o size n p) :
    Counts (StaticType.make i o size).occurrence (StaticType.make i o size).size n p := by
  cases size with
  | none => exact of i h.atMost h.min_le
  | some m => exact sized i (h.le_size m rfl).1 (h.le_size m rfl).2 fun hp => h.eq_size hp m rfl

theorem ofSeqType {s : SeqType} (h : s.occurrence.admits n = true) :
    Counts (StaticType.ofSeqType s).occurrence (StaticType.ofSeqType s).size n p :=
  of s.item (Occurrence.admits_iff.mp h).2 fun _ => (Occurrence.admits_iff.mp h).1

theorem anySize (h : Counts o size n p) : Counts o none n p :=
  ⟨h.atMost, by simp, h.min_le, by simp⟩

/-! ### Unions -/

theorem union {a b : StaticType}
    (h : Counts a.occurrence a.size n p ∨ Counts b.occurrence b.size n p) :
    Counts (a.union b).occurrence (a.union b).size n p := by
  refine make _ ?_
  have hmin : p → (a.occurrence.union b.occurrence).min ≤ n := fun hp => h.elim
    (fun h => Nat.le_trans Occurrence.union_min_le_left (h.min_le hp))
    (fun h => Nat.le_trans Occurrence.union_min_le_right (h.min_le hp))
  refine ⟨h.elim (fun h => h.atMost.union_left) (fun h => h.atMost.union_right), ?_, hmin, ?_⟩
  · intro m hm
    obtain ⟨heq, hm⟩ := Option.ite_none_right_eq_some.mp hm
    exact h.elim (fun h => h.le_size m hm) fun h => h.le_size m (heq ▸ hm)
  · intro hp m hm
    obtain ⟨heq, hm⟩ := Option.ite_none_right_eq_some.mp hm
    exact h.elim (fun h => h.eq_size hp m hm) fun h => h.eq_size hp m (heq ▸ hm)

/-! ### Checks -/

theorem check {t : StaticType} {target : SeqType} (h : Counts t.occurrence t.size k p) (hle : n ≤ k)
    (hmax : target.occurrence.AtMost n) (hclean : q → p ∧ n = k ∧ target.occurrence.min ≤ n) :
    Counts (checkType t target).occurrence (checkType t target).size n q := by
  refine make _ ⟨?_, ?_, ?_, ?_⟩
  · cases hinter : t.occurrence.intersect target.occurrence with
    | none => exact hmax
    | some o => exact (h.atMost.mono hle).intersect hmax hinter
  · intro m hm
    obtain ⟨hm, -⟩ := Option.filter_eq_some_iff.mp hm
    exact ⟨Nat.le_trans hle (h.le_size m hm).1, (h.le_size m hm).2⟩
  · intro hq
    obtain ⟨hp, rfl, hmin⟩ := hclean hq
    cases hinter : t.occurrence.intersect target.occurrence with
    | none => exact hmin
    | some o => exact Occurrence.intersect_min_le (h.min_le hp) hmin hinter
  · intro hq m hm
    obtain ⟨hm, -⟩ := Option.filter_eq_some_iff.mp hm
    obtain ⟨hp, rfl, -⟩ := hclean hq
    exact h.eq_size hp m hm

/-! ### Chains -/

theorem sum_le {ns : List Nat} {b : Nat} (h : ∀ n ∈ ns, n ≤ b) : ns.sum ≤ ns.length * b := by
  induction ns with
  | nil => simp
  | cons n ns ih =>
    rw [List.sum_cons, List.length_cons, Nat.succ_mul, Nat.add_comm]
    exact Nat.add_le_add (ih fun n hn => h n (List.mem_cons_of_mem _ hn)) (h n List.mem_cons_self)

theorem le_sum {ns : List Nat} {b : Nat} (h : ∀ n ∈ ns, b ≤ n) : ns.length * b ≤ ns.sum := by
  induction ns with
  | nil => simp
  | cons n ns ih =>
    rw [List.sum_cons, List.length_cons, Nat.succ_mul, Nat.add_comm]
    exact Nat.add_le_add (h n List.mem_cons_self) (ih fun n hn => h n (List.mem_cons_of_mem _ hn))

/-- The lengths of sequences, at most one for each item of another, which is complete if all of them
are. -/
theorem multiply (h : Counts o size k q) {ns : List Nat} (hlength : ns.length ≤ k)
    (hfull : q → ns.length = k) (hns : ∀ n ∈ ns, Counts o' size' n q) :
    Counts (o.multiply o') (productOf size size') ns.sum q := by
  refine ⟨?_, ?_, ?_, ?_⟩
  · refine h.atMost.multiply ?_ ?_ ?_
    · by_cases hzero : o'.max = some 0
      · refine .inr
          (Nat.le_zero.mp (Nat.le_trans (sum_le (b := 0) fun n hn => (hns n hn).atMost 0 hzero) ?_))
        simp
      · exact .inl hzero
    · intro y hy
      exact Nat.le_trans (sum_le fun n hn => (hns n hn).atMost y hy)
        (Nat.mul_le_mul_right y hlength)
    · rintro rfl
      obtain rfl := List.eq_nil_of_length_eq_zero (Nat.le_zero.mp hlength)
      rfl
  · intro m hm
    obtain ⟨x, y, hx, hy, rfl, hend⟩ := productOf_eq_some hm
    refine ⟨?_, hend⟩
    calc ns.sum ≤ ns.length * y := sum_le fun n hn => ((hns n hn).le_size y hy).1
      _ ≤ x * y := Nat.mul_le_mul_right y (Nat.le_trans hlength (h.le_size x hx).1)
  · intro hq
    calc (o.multiply o').min ≤ o.min * o'.min := Occurrence.multiply_min_le
      _ ≤ ns.length * o'.min := Nat.mul_le_mul_right _ (hfull hq ▸ h.min_le hq)
      _ ≤ ns.sum := le_sum fun n hn => (hns n hn).min_le hq
  · intro hq m hm
    obtain ⟨x, y, hx, hy, rfl, -⟩ := productOf_eq_some hm
    have heq : ∀ n ∈ ns, n = y := fun n hn => (hns n hn).eq_size hq y hy
    refine Nat.le_antisymm ?_ ?_
    · rw [← h.eq_size hq x hx, ← hfull hq]
      exact sum_le fun n hn => Nat.le_of_eq (heq n hn)
    · rw [← h.eq_size hq x hx, ← hfull hq]
      exact le_sum fun n hn => Nat.le_of_eq (heq n hn).symm

theorem one_product (h : Counts o size n p) : Counts o (productOf (some 1) size) n p := by
  have hsize {m : Nat} (hm : productOf (some 1) size = some m) : size = some m := by
    obtain ⟨x, y, hx, hy, rfl, -⟩ := productOf_eq_some hm
    rw [← Option.some.inj hx, Nat.one_mul, hy]
  exact ⟨h.atMost, fun m hm => h.le_size m (hsize hm), h.min_le,
    fun hp m hm => h.eq_size hp m (hsize hm)⟩

theorem dedup (h : Counts o none k p) (hle : n ≤ k) (hpos : 0 < k → 0 < n) : Counts o none n p where
  atMost := h.atMost.mono hle
  le_size := by simp
  min_le hp := by
    have hmin := h.min_le hp
    have hone : o.min ≤ 1 := by cases o <;> decide
    omega
  eq_size := by simp

end Counts

end TreeQuery
