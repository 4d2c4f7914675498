import Mathlib.Data.List.Perm.Basic
import Mathlib.Data.List.Pairwise
import TreeQuery.Sorting.Short
import TreeQuery.Proofs.Sorting.Answers
/-!
# Insertion and merging

What has been put out of two runs and what is left of them form a cut: the one comes before the
other, and of equal elements the first run's come first (`Cut`). A merge keeps that from either
end. Two cuts of the same runs lie one within the other (`Cut.nest`), so that merges from both ends
that have put out as many elements as there are have met (`mergeEnds_gives`).
-/

namespace TreeQuery
namespace Comparing

variable {α : Type} {cmp : α → α → Ordering} {u : α → Prop}

/-- A list in rising order. -/
abbrev Rising (cmp : α → α → Ordering) (as : List α) : Prop := as.Pairwise fun a b => (cmp a b).isLE

/-- A list in rising order from its last element on. -/
abbrev Falling (cmp : α → α → Ordering) (as : List α) : Prop :=
  as.Pairwise fun a b => (cmp b a).isLE

/-- The elements of `as` in rising order. -/
structure Arranges (cmp : α → α → Ordering) (as out : List α) : Prop where
  perm : out.Perm as
  rising : Rising cmp out

theorem isLE_of_lt {a b : α} (h : cmp a b = .lt) : (cmp a b).isLE := by rw [h]; rfl

section Orders

variable [Std.TransCmp cmp] {a b c : α}

theorem isLE_of_not_lt (h : cmp a b ≠ .lt) : (cmp b a).isLE := by
  have hswap : cmp b a = (cmp a b).swap := Std.OrientedCmp.eq_swap
  rw [hswap]
  cases hcmp : cmp a b with
  | lt => exact absurd hcmp h
  | eq | gt => rfl

theorem not_lt_of_isLE (h : (cmp a b).isLE) : cmp b a ≠ .lt := by
  intro hlt
  have hswap : cmp a b = (cmp b a).swap := Std.OrientedCmp.eq_swap
  rw [hswap, hlt] at h
  cases h

end Orders

/-! ### Insertion -/

section Insertion

variable [Std.TransCmp cmp]

theorem sink_gives {a : α} (ha : u a) {as : List α} (hu : ∀ b ∈ as, u b) (has : Falling cmp as) :
    (sink a as).Gives cmp u fun out => out.Perm (a :: as) ∧ Falling cmp out := by
  induction as with
  | nil => exact Gives.pure ⟨.refl _, List.pairwise_singleton _ a⟩
  | cons b bs ih =>
    rw [List.forall_mem_cons] at hu
    obtain ⟨hb, hbs⟩ := List.pairwise_cons.mp has
    refine Gives.branch (.less ha hu.1) (fun hlt => ?_) fun hlt => Gives.pure ⟨.refl _, ?_⟩
    · refine (ih hu.2 hbs).bind fun out hout => Gives.pure ⟨?_, List.pairwise_cons.mpr ⟨?_, hout.2⟩⟩
      · exact (hout.1.cons b).trans (.swap a b bs)
      · intro c hc
        rcases List.mem_cons.mp (hout.1.mem_iff.mp hc) with rfl | hc
        · exact isLE_of_lt hlt
        · exact hb c hc
    · refine List.pairwise_cons.mpr ⟨fun c hc => ?_, has⟩
      rcases List.mem_cons.mp hc with rfl | hc
      · exact isLE_of_not_lt hlt
      · exact Std.TransCmp.isLE_trans (hb c hc) (isLE_of_not_lt hlt)

theorem sinkAll_gives {as : List α} (sorted : List α) (hu : ∀ a ∈ sorted ++ as, u a)
    (hsorted : Falling cmp sorted) :
    (sinkAll sorted as).Gives cmp u fun out => out.Perm (sorted ++ as) ∧ Falling cmp out := by
  induction as generalizing sorted with
  | nil => exact Gives.pure ⟨by simp, hsorted⟩
  | cons a as ih =>
    have ha : u a := hu a (by simp)
    have hmem : ∀ b ∈ sorted, u b := fun b hb => hu b (List.mem_append_left _ hb)
    refine (sink_gives ha hmem hsorted).bind fun out hout => ?_
    have hperm : (out ++ as).Perm (sorted ++ a :: as) :=
      (hout.1.append_right as).trans List.perm_middle.symm
    exact (ih out (fun b hb => hu b (hperm.mem_iff.mp hb)) hout.2).imp fun out' h =>
      ⟨h.1.trans hperm, h.2⟩

theorem insertionSort_gives {as : List α} (hu : ∀ a ∈ as, u a) :
    (insertionSort as).Gives cmp u (Arranges cmp as) :=
  (sinkAll_gives [] hu .nil).bind fun out hout =>
    Gives.pure ⟨(List.reverse_perm out).trans hout.1, List.pairwise_reverse.mpr hout.2⟩

end Insertion

theorem sink_steady (a : α) (as : List α) : (sink a as).Steady := by
  induction as with
  | nil => trivial
  | cons b bs ih =>
    refine (Steady.less a b).bind fun c => ?_
    split
    · exact ih.bind fun _ => trivial
    · trivial

theorem insertionSort_steady (as : List α) : (insertionSort as).Steady := by
  have all (sorted : List α) : (sinkAll sorted as).Steady := by
    induction as generalizing sorted with
    | nil => trivial
    | cons a as ih => exact (sink_steady a sorted).bind fun out => ih out
  exact (all []).bind fun _ => trivial

/-! ### Cuts -/

/-- Two runs are cut into `as` and `as'`, `bs` and `bs'`: what stands before the cut comes before
the rest, of equal elements those of the first run. -/
structure Cut (cmp : α → α → Ordering) (as as' bs bs' : List α) : Prop where
  left : ∀ a ∈ as, ∀ b ∈ bs', (cmp a b).isLE
  right : ∀ b ∈ bs, ∀ a ∈ as', cmp b a = .lt

namespace Cut

variable {as as' bs bs' : List α}

theorem arranges (h : Cut cmp as as' bs bs') (hleft : Rising cmp (as ++ as'))
    (hright : Rising cmp (bs ++ bs')) {before behind : List α}
    (hbefore : Arranges cmp (as ++ bs) before) (hbehind : Arranges cmp (as' ++ bs') behind) :
    Arranges cmp ((as ++ as') ++ (bs ++ bs')) (before ++ behind) := by
  refine ⟨?_, List.pairwise_append.mpr ⟨hbefore.rising, hbehind.rising, fun a ha b hb => ?_⟩⟩
  · refine (hbefore.perm.append hbehind.perm).trans ?_
    rw [List.append_assoc, List.append_assoc]
    exact (List.perm_append_comm_assoc bs as' bs').append_left as
  · rw [hbefore.perm.mem_iff, List.mem_append] at ha
    rw [hbehind.perm.mem_iff, List.mem_append] at hb
    rcases ha with ha | ha <;> rcases hb with hb | hb
    · exact (List.pairwise_append.mp hleft).2.2 a ha b hb
    · exact h.left a ha b hb
    · exact isLE_of_lt (h.right a ha b hb)
    · exact (List.pairwise_append.mp hright).2.2 a ha b hb

/-- Of two cuts of the same runs the one with fewer elements in front lies within the other. -/
theorem nest [Std.TransCmp cmp] {cs cs' ds ds' : List α} (h : Cut cmp as as' bs bs')
    (h' : Cut cmp cs cs' ds ds') (hleft : as ++ as' = cs ++ cs') (hright : bs ++ bs' = ds ++ ds')
    (hlen : as.length + bs.length ≤ cs.length + ds.length) :
    ∃ xs ys, cs = as ++ xs ∧ as' = xs ++ cs' ∧ ds = bs ++ ys ∧ bs' = ys ++ ds' := by
  obtain ⟨xs, rfl, rfl⟩ | ⟨xs, rfl, rfl⟩ := List.append_eq_append_iff.mp hleft <;>
    obtain ⟨ys, rfl, rfl⟩ | ⟨ys, rfl, rfl⟩ := List.append_eq_append_iff.mp hright
  · exact ⟨xs, ys, rfl, rfl, rfl, rfl⟩
  · -- an element of `xs` would come before one of `ys` by one cut and behind it by the other
    cases xs with
    | nil =>
      obtain rfl : ys = [] := by
        rw [List.append_nil, List.length_append] at hlen
        exact List.eq_nil_of_length_eq_zero (by omega)
      exact ⟨[], [], rfl, rfl, by simp, by simp⟩
    | cons x xs =>
      cases ys with
      | nil => exact ⟨x :: xs, [], rfl, rfl, by simp, by simp⟩
      | cons y ys =>
        have hlt := h.right y (by simp) x (by simp)
        exact absurd hlt (not_lt_of_isLE (h'.left x (by simp) y (by simp)))
  · cases ys with
    | nil =>
      obtain rfl : xs = [] := by
        rw [List.append_nil, List.length_append] at hlen
        exact List.eq_nil_of_length_eq_zero (by omega)
      exact ⟨[], [], by simp, by simp, rfl, rfl⟩
    | cons y ys =>
      cases xs with
      | nil => exact ⟨[], y :: ys, by simp, by simp, rfl, rfl⟩
      | cons x xs =>
        have hlt := h'.right y (by simp) x (by simp)
        exact absurd hlt (not_lt_of_isLE (h.left x (by simp) y (by simp)))
  · rw [List.length_append, List.length_append] at hlen
    obtain rfl : xs = [] := List.eq_nil_of_length_eq_zero (by omega)
    obtain rfl : ys = [] := List.eq_nil_of_length_eq_zero (by omega)
    exact ⟨[], [], by simp, by simp, by simp, by simp⟩

end Cut

/-! ### Merging -/

namespace Merge

/-- What a merge of `left` and `right` from the front has come to when `as` and `bs` are put out. -/
structure Front (cmp : α → α → Ordering) (left right as bs : List α) (m : Merge α) : Prop where
  left_eq : left = as ++ m.left
  right_eq : right = bs ++ m.right
  cut : Cut cmp as m.left bs m.right
  out : Arranges cmp (as ++ bs) m.out.reverse

variable {left right as bs : List α} {m : Merge α} {a b : α} {as' bs' : List α} {n : Nat}

theorem arranges_concat {out : List α} (h : Arranges cmp (as ++ bs) out.reverse)
    (ha : ∀ b ∈ as ++ bs, (cmp b a).isLE) : Arranges cmp (as ++ bs ++ [a]) (a :: out).reverse := by
  rw [List.reverse_cons]
  refine ⟨h.perm.append_right [a], List.pairwise_append.mpr ⟨h.rising, ?_, fun b hb c hc => ?_⟩⟩
  · exact List.pairwise_singleton _ a
  · rw [List.mem_singleton.mp hc]
    exact ha b (h.perm.mem_iff.mp hb)

theorem Front.takeLeft (h : Front cmp left right as bs m) (hleft : Rising cmp left)
    (hm : m.left = a :: as') (ha : ∀ b ∈ m.right, (cmp a b).isLE) :
    Front cmp left right (as ++ [a]) bs m.takeLeft := by
  obtain ⟨_, right', out⟩ := m
  dsimp only at hm ha
  subst hm
  have hrun : Rising cmp (as ++ a :: as') := h.left_eq ▸ hleft
  obtain ⟨-, -, hcross⟩ := List.pairwise_append.mp hrun
  refine ⟨by rw [h.left_eq]; simp [Merge.takeLeft], h.right_eq, ⟨?_, ?_⟩, ?_⟩
  · intro x hx b hb
    rcases List.mem_append.mp hx with hx | hx
    · exact h.cut.left x hx b hb
    · rw [List.mem_singleton.mp hx]
      exact ha b hb
  · exact fun b hb x hx => h.cut.right b hb x (List.mem_cons_of_mem a hx)
  · have hperm : (as ++ bs ++ [a]).Perm (as ++ [a] ++ bs) := by
      rw [List.append_assoc, List.append_assoc]
      exact List.perm_append_comm.append_left as
    have hout := arranges_concat h.out fun b hb => (List.mem_append.mp hb).elim
      (fun hb => hcross b hb a List.mem_cons_self)
      fun hb => isLE_of_lt (h.cut.right b hb a List.mem_cons_self)
    exact ⟨hout.perm.trans hperm, hout.rising⟩

theorem Front.takeRight (h : Front cmp left right as bs m) (hright : Rising cmp right)
    (hm : m.right = b :: bs') (hb : ∀ a ∈ m.left, cmp b a = .lt) :
    Front cmp left right as (bs ++ [b]) m.takeRight := by
  obtain ⟨left', _, out⟩ := m
  dsimp only at hm hb
  subst hm
  have hrun : Rising cmp (bs ++ b :: bs') := h.right_eq ▸ hright
  obtain ⟨-, -, hcross⟩ := List.pairwise_append.mp hrun
  refine ⟨h.left_eq, by rw [h.right_eq]; simp [Merge.takeRight], ⟨?_, ?_⟩, ?_⟩
  · exact fun a ha x hx => h.cut.left a ha x (List.mem_cons_of_mem b hx)
  · intro x hx a ha
    rcases List.mem_append.mp hx with hx | hx
    · exact h.cut.right x hx a ha
    · rw [List.mem_singleton.mp hx]
      exact hb a ha
  · have hout := arranges_concat h.out fun a ha => (List.mem_append.mp ha).elim
      (fun ha => h.cut.left a ha b List.mem_cons_self)
      fun ha => hcross a ha b List.mem_cons_self
    rw [List.append_assoc] at hout
    exact hout

/-- A merge of `left` and `right` from the front has put out `n` elements. -/
def Reaches (cmp : α → α → Ordering) (left right : List α) (n : Nat) (m : Merge α) : Prop :=
  ∃ as bs, Front cmp left right as bs m ∧ as.length + bs.length = n

theorem Reaches.start (left right : List α) : Reaches cmp left right 0 ⟨left, right, []⟩ :=
  ⟨[], [], ⟨rfl, rfl, ⟨nofun, nofun⟩, ⟨.refl _, .nil⟩⟩, rfl⟩

theorem Reaches.mem (h : Reaches cmp left right n m) {x : α} :
    (x ∈ m.left → x ∈ left) ∧ (x ∈ m.right → x ∈ right) := by
  obtain ⟨as, bs, hfront, -⟩ := h
  rw [hfront.left_eq, hfront.right_eq]
  exact ⟨List.mem_append_right as, List.mem_append_right bs⟩

/-- A step puts out the lesser of two elements, of equal ones that of `left`. -/
theorem Reaches.step [Std.TransCmp cmp] (h : Reaches cmp left right n m) (hleft : Rising cmp left)
    (hright : Rising cmp right) (ha : m.left = a :: as') (hb : m.right = b :: bs') :
    (cmp b a = .lt → Reaches cmp left right (n + 1) m.takeRight) ∧
      (cmp b a ≠ .lt → Reaches cmp left right (n + 1) m.takeLeft) := by
  obtain ⟨as, bs, hfront, rfl⟩ := h
  refine ⟨fun hlt => ⟨as, bs ++ [b], hfront.takeRight hright hb fun x hx => ?_, ?_⟩,
    fun hlt => ⟨as ++ [a], bs, hfront.takeLeft hleft ha fun x hx => ?_, ?_⟩⟩
  · rw [ha] at hx
    rcases List.mem_cons.mp hx with rfl | hx
    · exact hlt
    · have hrun : Rising cmp (a :: as') :=
        ha ▸ (List.pairwise_append.mp (hfront.left_eq ▸ hleft)).2.1
      exact Std.TransCmp.lt_of_lt_of_isLE hlt ((List.pairwise_cons.mp hrun).1 x hx)
  · rw [List.length_append, List.length_singleton, Nat.add_assoc]
  · rw [hb] at hx
    rcases List.mem_cons.mp hx with rfl | hx
    · exact isLE_of_not_lt hlt
    · have hrun : Rising cmp (b :: bs') :=
        hb ▸ (List.pairwise_append.mp (hfront.right_eq ▸ hright)).2.1
      exact Std.TransCmp.isLE_trans (isLE_of_not_lt hlt) ((List.pairwise_cons.mp hrun).1 x hx)
  · rw [List.length_append, List.length_singleton]
    omega

/-! ### From the back -/

def mirror (m : Merge α) : Merge α := ⟨m.right, m.left, m.out⟩

/-- A merge of `left` and `right` from the back has put out `n` elements: it is a merge from the
front, of runs and of an order that are turned around. -/
def ReachesBack (cmp : α → α → Ordering) (left right : List α) (n : Nat) (m : Merge α) : Prop :=
  Reaches (fun a b => cmp b a) right.reverse left.reverse n m.mirror

theorem ReachesBack.start (left right : List α) :
    ReachesBack cmp left right 0 ⟨left.reverse, right.reverse, []⟩ := Reaches.start _ _

/-- What a merge of `left` and `right` from the back has come to when `as` and `bs` are put out. -/
structure Back (cmp : α → α → Ordering) (left right as bs : List α) (m : Merge α) : Prop where
  left_eq : left = m.left.reverse ++ as
  right_eq : right = m.right.reverse ++ bs
  cut : Cut cmp m.left.reverse as m.right.reverse bs
  out : Arranges cmp (as ++ bs) m.out

theorem ReachesBack.back (h : ReachesBack cmp left right n m) :
    ∃ as bs, Back cmp left right as bs m ∧ as.length + bs.length = n := by
  obtain ⟨bs, as, hfront, hlen⟩ := h
  refine ⟨as.reverse, bs.reverse,
    ⟨?_, ?_, ⟨fun a ha b hb => ?_, fun b hb a ha => ?_⟩, ⟨?_, ?_⟩⟩, ?_⟩
  · have hleft : left.reverse = as ++ m.left := hfront.right_eq
    rw [← left.reverse_reverse, hleft, List.reverse_append]
  · have hright : right.reverse = bs ++ m.right := hfront.left_eq
    rw [← right.reverse_reverse, hright, List.reverse_append]
  · exact hfront.cut.left b (List.mem_reverse.mp hb) a (List.mem_reverse.mp ha)
  · exact hfront.cut.right a (List.mem_reverse.mp ha) b (List.mem_reverse.mp hb)
  · have hperm : m.out.Perm (bs ++ as) := (List.reverse_perm m.out).symm.trans hfront.out.perm
    rw [← List.reverse_append]
    exact hperm.trans (List.reverse_perm _).symm
  · exact List.pairwise_reverse.mp hfront.out.rising
  · rw [List.length_reverse, List.length_reverse, Nat.add_comm]
    exact hlen

theorem takeLeft_mirror (m : Merge α) : m.takeLeft.mirror = m.mirror.takeRight := by
  obtain ⟨_ | _, _, _⟩ := m <;> rfl

theorem takeRight_mirror (m : Merge α) : m.takeRight.mirror = m.mirror.takeLeft := by
  obtain ⟨_, _ | _, _⟩ := m <;> rfl

theorem ReachesBack.step [Std.TransCmp cmp] (h : ReachesBack cmp left right n m)
    (hleft : Rising cmp left) (hright : Rising cmp right) (ha : m.left = a :: as')
    (hb : m.right = b :: bs') :
    (cmp b a = .lt → ReachesBack cmp left right (n + 1) m.takeLeft) ∧
      (cmp b a ≠ .lt → ReachesBack cmp left right (n + 1) m.takeRight) := by
  rw [ReachesBack, ReachesBack, takeLeft_mirror, takeRight_mirror]
  exact Reaches.step h (List.pairwise_reverse.mpr hright) (List.pairwise_reverse.mpr hleft) hb ha

/-! ### Runs of steps -/

@[simp] theorem takeLeft_left (m : Merge α) : m.takeLeft.left = m.left.tail := by
  obtain ⟨_ | _, _, _⟩ := m <;> rfl

@[simp] theorem takeLeft_right (m : Merge α) : m.takeLeft.right = m.right := by
  obtain ⟨_ | _, _, _⟩ := m <;> rfl

@[simp] theorem takeRight_left (m : Merge α) : m.takeRight.left = m.left := by
  obtain ⟨_, _ | _, _⟩ := m <;> rfl

@[simp] theorem takeRight_right (m : Merge α) : m.takeRight.right = m.right.tail := by
  obtain ⟨_, _ | _, _⟩ := m <;> rfl

/-- A step takes at most one element from each run. -/
def Near (m m' : Merge α) : Prop :=
  m.left.length ≤ m'.left.length + 1 ∧ m.right.length ≤ m'.right.length + 1

theorem near_takeLeft (m : Merge α) : m.Near m.takeLeft := by
  simp only [Near, takeLeft_left, takeLeft_right, List.length_tail]
  omega

theorem near_takeRight (m : Merge α) : m.Near m.takeRight := by
  simp only [Near, takeRight_left, takeRight_right, List.length_tail]
  omega

section Runs

variable [Std.TransCmp cmp] (hleft : Rising cmp left) (hright : Rising cmp right)
  (hu : ∀ a ∈ left ++ right, u a)

include hleft hright hu

theorem up_gives (h : Reaches cmp left right n m) (ha : m.left ≠ []) (hb : m.right ≠ []) :
    m.up.Gives cmp u fun m' => Reaches cmp left right (n + 1) m' ∧ m.Near m' := by
  obtain ⟨a, as, ha⟩ := List.exists_cons_of_ne_nil ha
  obtain ⟨b, bs, hb⟩ := List.exists_cons_of_ne_nil hb
  have hua : u a := hu a (List.mem_append_left _ (h.mem.1 (by simp [ha])))
  have hub : u b := hu b (List.mem_append_right _ (h.mem.2 (by simp [hb])))
  have hstep := h.step hleft hright ha hb
  rw [up, ha, hb]
  exact Gives.branch (.less hub hua) (fun hlt => Gives.pure ⟨hstep.1 hlt, near_takeRight m⟩)
    fun hlt => Gives.pure ⟨hstep.2 hlt, near_takeLeft m⟩

theorem down_gives (h : ReachesBack cmp left right n m) (ha : m.left ≠ []) (hb : m.right ≠ []) :
    m.down.Gives cmp u fun m' => ReachesBack cmp left right (n + 1) m' ∧ m.Near m' := by
  obtain ⟨a, as, ha⟩ := List.exists_cons_of_ne_nil ha
  obtain ⟨b, bs, hb⟩ := List.exists_cons_of_ne_nil hb
  have hmem {x : α} : (x ∈ m.right → x ∈ right.reverse) ∧ (x ∈ m.left → x ∈ left.reverse) :=
    Reaches.mem h
  have hua : u a := hu a (List.mem_append_left _ (List.mem_reverse.mp (hmem.2 (by simp [ha]))))
  have hub : u b := hu b (List.mem_append_right _ (List.mem_reverse.mp (hmem.1 (by simp [hb]))))
  have hstep := h.step hleft hright ha hb
  rw [down, ha, hb]
  exact Gives.branch (.less hub hua) (fun hlt => Gives.pure ⟨hstep.1 hlt, near_takeLeft m⟩)
    fun hlt => Gives.pure ⟨hstep.2 hlt, near_takeRight m⟩

end Runs

theorem up_stuck (h : m.left = [] ∨ m.right = []) : m.up = pure m := by
  obtain ⟨_ | ⟨a, as⟩, _ | ⟨b, bs⟩, out⟩ := m
  · rfl
  · rfl
  · rfl
  · simp at h

theorem down_stuck (h : m.left = [] ∨ m.right = []) : m.down = pure m := by
  obtain ⟨_ | ⟨a, as⟩, _ | ⟨b, bs⟩, out⟩ := m
  · rfl
  · rfl
  · rfl
  · simp at h

theorem ups_stuck (h : m.left = [] ∨ m.right = []) (steps : Nat) : ups steps m = pure m := by
  induction steps with
  | zero => rfl
  | succ steps ih =>
    rw [ups, up_stuck h]
    exact ih

theorem downs_stuck (h : m.left = [] ∨ m.right = []) (steps : Nat) : downs steps m = pure m := by
  induction steps with
  | zero => rfl
  | succ steps ih =>
    rw [downs, down_stuck h]
    exact ih

section Runs

variable [Std.TransCmp cmp] (hleft : Rising cmp left) (hright : Rising cmp right)
  (hu : ∀ a ∈ left ++ right, u a)

include hleft hright hu

/-- A merge from the front goes on for as many steps as are asked for or until a run is used up. -/
theorem ups_gives (steps : Nat) (h : Reaches cmp left right n m) :
    (ups steps m).Gives cmp u fun m' => ∃ n', Reaches cmp left right n' m' ∧
      (n' = n + steps ∨ m'.left = [] ∨ m'.right = []) := by
  induction steps generalizing n m with
  | zero => exact Gives.pure ⟨n, h, .inl rfl⟩
  | succ steps ih =>
    by_cases hstuck : m.left = [] ∨ m.right = []
    · rw [ups_stuck hstuck]
      exact Gives.pure ⟨n, h, .inr hstuck⟩
    · rw [not_or] at hstuck
      refine (up_gives hleft hright hu h hstuck.1 hstuck.2).bind fun m' hm' => ?_
      refine (ih hm'.1).imp fun out ⟨n', hout, hn⟩ => ⟨n', hout, hn.imp_left (by omega)⟩

theorem downs_gives (steps : Nat) (h : ReachesBack cmp left right n m) :
    (downs steps m).Gives cmp u fun m' => ∃ n', ReachesBack cmp left right n' m' ∧
      (n' = n + steps ∨ m'.left = [] ∨ m'.right = []) := by
  induction steps generalizing n m with
  | zero => exact Gives.pure ⟨n, h, .inl rfl⟩
  | succ steps ih =>
    by_cases hstuck : m.left = [] ∨ m.right = []
    · rw [downs_stuck hstuck]
      exact Gives.pure ⟨n, h, .inr hstuck⟩
    · rw [not_or] at hstuck
      refine (down_gives hleft hright hu h hstuck.1 hstuck.2).bind fun m' hm' => ?_
      refine (ih hm'.1).imp fun out ⟨n', hout, hn⟩ => ⟨n', hout, hn.imp_left (by omega)⟩

theorem both_gives (steps : Nat) {front back : Merge α} {n n' : Nat}
    (hfront : Reaches cmp left right n front) (hback : ReachesBack cmp left right n' back)
    (hl : steps ≤ front.left.length ∧ steps ≤ back.left.length)
    (hr : steps ≤ front.right.length ∧ steps ≤ back.right.length) :
    (both steps front back).Gives cmp u fun m =>
      Reaches cmp left right (n + steps) m.1 ∧ ReachesBack cmp left right (n' + steps) m.2 := by
  induction steps generalizing front back n n' with
  | zero => exact Gives.pure ⟨hfront, hback⟩
  | succ steps ih =>
    have ne {as : List α} (h : steps + 1 ≤ as.length) : as ≠ [] := by
      rintro rfl
      exact absurd h (by simp)
    refine (up_gives hleft hright hu hfront (ne hl.1) (ne hr.1)).bind fun front' hfront' => ?_
    refine (down_gives hleft hright hu hback (ne hl.2) (ne hr.2)).bind fun back' hback' => ?_
    obtain ⟨hfl, hfr⟩ := hfront'.2
    obtain ⟨hbl, hbr⟩ := hback'.2
    refine (ih hfront'.1 hback'.1 (by omega) (by omega)).imp fun m hm => ?_
    rw [Nat.add_right_comm n, Nat.add_right_comm n'] at hm
    exact hm

end Runs
end Merge

theorem arranges_rest {as bs : List α} (h : as = [] ∨ bs = []) (has : Rising cmp as)
    (hbs : Rising cmp bs) : Arranges cmp (as ++ bs) (as ++ bs) := by
  refine ⟨.refl _, ?_⟩
  rcases h with rfl | rfl
  · exact hbs
  · rwa [List.append_nil]

section Merges

variable [Std.TransCmp cmp] {left right : List α}

theorem mergeRuns_gives (hleft : Rising cmp left) (hright : Rising cmp right)
    (hu : ∀ a ∈ left ++ right, u a) :
    (mergeRuns left right).Gives cmp u (Arranges cmp (left ++ right)) := by
  unfold mergeRuns
  dsimp only
  split
  · refine (Merge.ups_gives hleft hright hu _ (.start left right)).bind fun m hm => Gives.pure ?_
    obtain ⟨n, ⟨as, bs, hfront, hlen⟩, hend⟩ := hm
    have hused : m.left = [] ∨ m.right = [] := by
      refine hend.elim (fun hn => .inl (List.eq_nil_of_length_eq_zero ?_)) id
      have hl := congrArg List.length hfront.left_eq
      have hr := congrArg List.length hfront.right_eq
      rw [List.length_append] at hl hr
      omega
    have hrest := arranges_rest hused (List.pairwise_append.mp (hfront.left_eq ▸ hleft)).2.1
      (List.pairwise_append.mp (hfront.right_eq ▸ hright)).2.1
    have hall := hfront.cut.arranges (hfront.left_eq ▸ hleft) (hfront.right_eq ▸ hright)
      hfront.out hrest
    rwa [← hfront.left_eq, ← hfront.right_eq] at hall
  · refine (Merge.downs_gives hleft hright hu _ (.start left right)).bind fun m hm => Gives.pure ?_
    obtain ⟨n, hback, hend⟩ := hm
    obtain ⟨as, bs, hback, hlen⟩ := hback.back
    have hused : m.left.reverse = [] ∨ m.right.reverse = [] := by
      rw [List.reverse_eq_nil_iff, List.reverse_eq_nil_iff]
      refine hend.elim (fun hn => .inl (List.eq_nil_of_length_eq_zero ?_)) id
      have hl := congrArg List.length hback.left_eq
      have hr := congrArg List.length hback.right_eq
      rw [List.length_append, List.length_reverse] at hl hr
      omega
    have hrest := arranges_rest hused (List.pairwise_append.mp (hback.left_eq ▸ hleft)).1
      (List.pairwise_append.mp (hback.right_eq ▸ hright)).1
    have hall := hback.cut.arranges (hback.left_eq ▸ hleft) (hback.right_eq ▸ hright)
      hrest hback.out
    rwa [← hback.left_eq, ← hback.right_eq] at hall

/-- Between what merges from both ends have put out, `xs` and `ys` of the runs are left. -/
structure Merge.Gap (cmp : α → α → Ordering) (left right as xs cs bs ys ds : List α)
    (front back : Merge α) : Prop where
  front_spec : Front cmp left right as bs front
  back_spec : Back cmp left right cs ds back
  front_left : front.left = xs ++ cs
  back_left : back.left.reverse = as ++ xs
  front_right : front.right = ys ++ ds
  back_right : back.right.reverse = bs ++ ys

theorem Merge.Reaches.gap {front back : Merge α} {n n' : Nat}
    (hfront : Reaches cmp left right n front) (hback : ReachesBack cmp left right n' back)
    (hlen : n + n' ≤ left.length + right.length) :
    ∃ as xs cs bs ys ds, Gap cmp left right as xs cs bs ys ds front back ∧
      as.length + bs.length = n ∧ n + n' + (xs.length + ys.length) = left.length +
      right.length := by
  obtain ⟨as, bs, hfront, hn⟩ := hfront
  obtain ⟨cs, ds, hback, hn'⟩ := hback.back
  have hl := congrArg List.length hback.left_eq
  have hr := congrArg List.length hback.right_eq
  rw [List.length_append] at hl hr
  obtain ⟨xs, ys, hxs, hxs', hys, hys'⟩ := hfront.cut.nest hback.cut
    (hfront.left_eq.symm.trans hback.left_eq) (hfront.right_eq.symm.trans hback.right_eq) (by omega)
  refine ⟨as, xs, cs, bs, ys, ds, ⟨hfront, hback, hxs', hxs, hys', hys⟩, hn, ?_⟩
  rw [hxs, List.length_append] at hl
  rw [hys, List.length_append] at hr
  omega

theorem joinEnds_gives {front back : Merge α} {n n' : Nat} (hleft : Rising cmp left)
    (hright : Rising cmp right) (hfront : Merge.Reaches cmp left right n front)
    (hback : Merge.ReachesBack cmp left right n' back)
    (hlen : n + n' = left.length + right.length) :
    (joinEnds left right front back).Gives cmp u (Arranges cmp (left ++ right)) := by
  obtain ⟨as, xs, cs, bs, ys, ds, h, -, hgap⟩ := hfront.gap hback (by omega)
  obtain rfl : xs = [] := List.eq_nil_of_length_eq_zero (by omega)
  obtain rfl : ys = [] := List.eq_nil_of_length_eq_zero (by omega)
  have hl : front.left.length + back.left.length = left.length := by
    rw [h.back_spec.left_eq, h.front_left, List.nil_append, List.length_append,
      List.length_reverse, Nat.add_comm]
  have hr : front.right.length + back.right.length = right.length := by
    rw [h.back_spec.right_eq, h.front_right, List.nil_append, List.length_append,
      List.length_reverse, Nat.add_comm]
  rw [joinEnds, if_pos ⟨hl, hr⟩]
  have hout := h.back_spec.out
  rw [← List.nil_append cs, ← h.front_left, ← List.nil_append ds, ← h.front_right] at hout
  have hall := h.front_spec.cut.arranges (h.front_spec.left_eq ▸ hleft)
    (h.front_spec.right_eq ▸ hright)
    h.front_spec.out hout
  rw [← h.front_spec.left_eq, ← h.front_spec.right_eq] at hall
  exact Gives.pure hall

/-- The step without a comparison puts out what a comparison would. -/
theorem finish_reaches {front back : Merge α} (hleft : Rising cmp left) (hright : Rising cmp right)
    (hfront : Merge.Reaches cmp left right left.length front)
    (hback : Merge.ReachesBack cmp left right left.length back)
    (hlen : right.length = left.length + 1) :
    Merge.Reaches cmp left right (left.length + 1) (front.finish left right back) := by
  obtain ⟨as, xs, cs, bs, ys, ds, h, hn, hgap⟩ := hfront.gap hback (by omega)
  have hl := congrArg List.length h.back_spec.left_eq
  rw [h.back_left, List.length_append, List.length_append] at hl
  have hfl := congrArg List.length h.front_left
  have hbl := congrArg List.length h.back_left
  rw [List.length_append] at hfl hbl
  rw [List.length_reverse] at hbl
  rw [Merge.finish, if_neg (by omega)]
  cases xs with
  | nil =>
    rw [List.length_nil] at hgap hl hfl hbl
    obtain ⟨y, rfl⟩ : ∃ y, ys = [y] := List.length_eq_one_iff.mp (by omega)
    rw [if_neg (by omega)]
    refine ⟨as, bs ++ [y], h.front_spec.takeRight hright h.front_right fun a ha =>
      ?_, by simp; omega⟩
    exact h.back_spec.cut.right y (by simp [h.back_right]) a (by simpa [h.front_left] using ha)
  | cons x xs =>
    rw [List.length_cons] at hgap hl hfl hbl
    obtain rfl : xs = [] := List.eq_nil_of_length_eq_zero (by omega)
    obtain rfl : ys = [] := List.eq_nil_of_length_eq_zero (by omega)
    rw [if_pos (by omega)]
    refine ⟨as ++ [x], bs, h.front_spec.takeLeft hleft h.front_left fun b hb => ?_, by simp; omega⟩
    exact h.back_spec.cut.left x (by simp [h.back_left]) b (by simpa [h.front_right] using hb)

theorem mergeEnds_gives (hleft : Rising cmp left) (hright : Rising cmp right)
    (hu : ∀ a ∈ left ++ right, u a)
    (hlen : right.length = left.length ∨ right.length = left.length + 1) :
    (mergeEnds left right).Gives cmp u (Arranges cmp (left ++ right)) := by
  refine (Merge.both_gives hleft hright hu left.length (.start left right) (.start left right)
    (by simp) (by simp; omega)).bind ?_
  rintro ⟨front, back⟩ ⟨hfront, hback⟩
  rw [Nat.zero_add] at hfront hback
  show (joinEnds left right (front.finish left right back) back).Gives cmp u _
  rcases hlen with hlen | hlen
  · rw [Merge.finish, if_pos hlen.symm]
    exact joinEnds_gives hleft hright hfront hback (by omega)
  · exact joinEnds_gives hleft hright (finish_reaches hleft hright hfront hback hlen) hback
      (by omega)

end Merges
end Comparing
end TreeQuery
