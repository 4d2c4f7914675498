import TreeQuery.Sorting.Stable
import TreeQuery.Proofs.Sorting.Short
/-!
# The stable sort is right

Division around a pivot sorts, whichever element the pivot is, and so do stretches, in whatever
order they are merged: `stableSort_gives`.
-/

namespace TreeQuery
namespace Comparing

variable {α : Type} {cmp : α → α → Ordering} {u : α → Prop} {as : List α}

/-! ### Division -/

theorem median_gives {v : Array α} (hu : ∀ a ∈ v, u a) (i j k : Fin v.size) :
    (median v i j k).Gives cmp u fun _ => True := by
  have hmem (i : Fin v.size) : u v[i] := hu _ (Array.getElem_mem _)
  refine (Gives.less (hmem i) (hmem j)).bind fun x _ =>
    (Gives.less (hmem i) (hmem k)).bind fun y _ => ?_
  split
  · exact (Gives.less (hmem j) (hmem k)).bind fun z _ => Gives.pure trivial
  · exact Gives.pure trivial

theorem pseudoMedian_gives {v : Array α} (hu : ∀ a ∈ v, u a) (n start : Nat) (hn : 0 < n)
    (hv : start + 8 * n ≤ v.size) : (pseudoMedian v n start hn hv).Gives cmp u fun _ => True := by
  induction n using Nat.strongRecOn generalizing start with
  | ind n ih =>
    unfold pseudoMedian
    split
    · have inner (start : Nat) (h : start + 8 * (n / 8) ≤ v.size) :
          (pseudoMedian v (n / 8) start (by omega) h).Gives cmp u fun _ => True :=
        ih (n / 8) (by omega) start (by omega) h
      exact (inner _ _).bind fun i _ => (inner _ _).bind fun j _ => (inner _ _).bind fun k _ =>
        median_gives hu i j k
    · exact median_gives hu _ _ _

theorem divide_gives {test : α → Comparing α Bool} {p : α → Prop}
    (htest : ∀ a ∈ as, (test a).Gives cmp u fun c => c = true ↔ p a) (passed others : List α)
    (hpassed : ∀ a ∈ passed, p a) (hothers : ∀ a ∈ others, ¬p a) :
    (divide test as passed others).Gives cmp u fun q => (q.1 ++ q.2).Perm (passed ++ others ++ as) ∧
      (∀ a ∈ q.1, p a) ∧ ∀ a ∈ q.2, ¬p a := by
  induction as generalizing passed others with
  | nil => exact Gives.pure ⟨by simp, hpassed, hothers⟩
  | cons a as ih =>
    rw [List.forall_mem_cons] at htest
    refine Gives.branch htest.1 (fun ha => ?_) fun ha => ?_
    · refine (ih htest.2 _ _ (List.forall_mem_cons.mpr ⟨ha, hpassed⟩) hothers).imp
        fun q hq => ⟨?_, hq.2⟩
      exact hq.1.trans List.perm_middle.symm
    · refine (ih htest.2 _ _ hpassed (List.forall_mem_cons.mpr ⟨ha, hothers⟩)).imp
        fun q hq => ⟨?_, hq.2⟩
      refine hq.1.trans ?_
      rw [List.append_assoc, List.append_assoc]
      exact List.perm_middle.symm.append_left passed

theorem divideAround_gives {test : α → Comparing α Bool} {p : α → Prop} {before after : List α}
    {pivot : α} {pivotPasses : Bool} (hpivot : pivotPasses = true ↔ p pivot)
    (htest : ∀ a ∈ before ++ pivot :: after, (test a).Gives cmp u fun c => c = true ↔ p a) :
    (divideAround test before pivot pivotPasses after).Gives cmp u fun q =>
      (q.1 ++ q.2).Perm (before ++ pivot :: after) ∧ (∀ a ∈ q.1, p a) ∧ ∀ a ∈ q.2, ¬p a := by
  have hbefore : ∀ a ∈ before, (test a).Gives cmp u fun c => c = true ↔ p a :=
    fun a ha => htest a (by simp [ha])
  have hafter : ∀ a ∈ after, (test a).Gives cmp u fun c => c = true ↔ p a :=
    fun a ha => htest a (by simp [ha])
  refine (divide_gives hbefore [] [] nofun nofun).bind ?_
  rintro ⟨passed, others⟩ ⟨hperm, hpassed, hothers⟩
  have turned {q : List α × List α}
      (hq : (q.1 ++ q.2).Perm (before ++ pivot :: after) ∧ (∀ a ∈ q.1, p a) ∧ ∀ a ∈ q.2, ¬p a) :
      (pure (q.1.reverse, q.2.reverse) : Comparing α (List α × List α)).Gives cmp u fun q =>
        (q.1 ++ q.2).Perm (before ++ pivot :: after) ∧ (∀ a ∈ q.1, p a) ∧ ∀ a ∈ q.2, ¬p a :=
    Gives.pure ⟨((List.reverse_perm q.1).append (List.reverse_perm q.2)).trans hq.1,
      fun a ha => hq.2.1 a (List.mem_reverse.mp ha), fun a ha => hq.2.2 a (List.mem_reverse.mp ha)⟩
  have hmiddle : (pivot :: (passed ++ others) ++ after).Perm (before ++ pivot :: after) :=
    ((hperm.append_right after).cons pivot).trans List.perm_middle.symm
  cases pivotPasses with
  | true =>
    have hin := List.forall_mem_cons.mpr ⟨hpivot.mp rfl, hpassed⟩
    exact (divide_gives hafter _ _ hin hothers).bind fun q hq => turned ⟨hq.1.trans hmiddle, hq.2⟩
  | false =>
    have hout := List.forall_mem_cons.mpr ⟨fun h => Bool.false_ne_true (hpivot.mpr h), hothers⟩
    refine (divide_gives hafter _ _ hpassed hout).bind fun q hq => turned ⟨hq.1.trans ?_, hq.2⟩
    exact (List.perm_middle.append_right after).trans hmiddle

theorem isFloor_gives {floor : Option α} {pivot : α} (hfloor : ∀ a ∈ floor, u a)
    (hpivot : u pivot) : (isFloor floor pivot).Gives cmp u fun c => c = true ↔
    ∃ a ∈ floor, cmp a pivot ≠ .lt := by
  cases floor with
  | none => exact Gives.pure (by simp)
  | some a => exact (Gives.notLess (hfloor a rfl) hpivot).imp fun c hc => by simpa using hc

section Quick

variable [Std.TransCmp cmp]

theorem arranges_same {pivot : α} {same above out : List α} (hsame : ∀ a ∈ same, (cmp a pivot).isLE)
    (hsame' : ∀ a ∈ same, (cmp pivot a).isLE) (habove : ∀ a ∈ above, (cmp pivot a).isLE)
    (hout : Arranges cmp above out) : Arranges cmp (same ++ above) (same ++ out) := by
  refine ⟨hout.perm.append_left same,
    List.pairwise_append.mpr ⟨?_, hout.rising, fun a ha b hb => ?_⟩⟩
  · exact List.pairwise_of_forall_mem_list fun a ha b hb =>
      Std.TransCmp.isLE_trans (hsame a ha) (hsame' b hb)
  · exact Std.TransCmp.isLE_trans (hsame a ha) (habove b (hout.perm.mem_iff.mp hb))

theorem arranges_below {pivot : α} {below above out out' : List α}
    (hbelow : ∀ a ∈ below, (cmp a pivot).isLE) (habove : ∀ a ∈ above, (cmp pivot a).isLE)
    (hout : Arranges cmp below out) (hout' : Arranges cmp above out') :
    Arranges cmp (below ++ above) (out ++ out') :=
  ⟨hout.perm.append hout'.perm,
      List.pairwise_append.mpr ⟨hout.rising, hout'.rising, fun a ha b hb =>
    Std.TransCmp.isLE_trans (hbelow a (hout.perm.mem_iff.mp ha))
      (habove b (hout'.perm.mem_iff.mp hb))⟩⟩

theorem divideBelow_gives {floor : Option α} {before after : List α} {pivot : α}
    (hfloor : ∀ a ∈ floor, u a) (hu : ∀ a ∈ before ++ pivot :: after, u a)
    (hv : ∀ a ∈ floor, ∀ b ∈ before ++ pivot :: after, (cmp a b).isLE) :
    (divideBelow floor before pivot after).Gives cmp u fun q =>
      (q.1 ++ q.2).Perm (before ++ pivot :: after) ∧ (∀ a ∈ q.1, cmp a pivot = .lt) ∧
        ∀ a ∈ q.2, cmp a pivot ≠ .lt := by
  have hpivot : u pivot := hu pivot (by simp)
  refine Gives.branch (isFloor_gives hfloor hpivot) ?_ fun _ => ?_
  · rintro ⟨a, ha, hle⟩
    refine Gives.pure ⟨.refl _, nofun, fun b hb => not_lt_of_isLE ?_⟩
    exact Std.TransCmp.isLE_trans (isLE_of_not_lt hle) (hv a ha b hb)
  · refine divideAround_gives ?_ fun a ha => .less (hu a ha) hpivot
    simp [Std.ReflCmp.compare_self]

theorem quicksort_gives {fallback : List α → Comparing α (List α)}
    (hfallback : ∀ v, v ≠ [] → (∀ a ∈ v, u a) → (fallback v).Gives cmp u (Arranges cmp v))
    (limit : Nat) (floor : Option α) (hfloor : ∀ a ∈ floor, u a) {v : List α} (hu : ∀ a ∈ v, u a)
    (hv : ∀ a ∈ floor, ∀ b ∈ v, (cmp a b).isLE) :
    (quicksort fallback limit floor v).Gives cmp u (Arranges cmp v) := by
  induction limit generalizing floor v with
  | zero =>
    rw [quicksort]
    split
    · exact sortShort_gives hu
    · next hlong => exact hfallback v (fun hv => hlong (hv ▸ Nat.zero_le _)) hu
  | succ limit ih =>
    rw [quicksort]
    split
    · exact sortShort_gives hu
    refine (pseudoMedian_gives (fun a ha => hu a (by simpa using ha)) _ _ _ _).bind fun i _ => ?_
    have hv' : v.take i ++ v.toArray[i] :: v.drop (i + 1) = v := by simp
    generalize v.toArray[i] = pivot at hv'
    generalize v.take i = before at hv'
    generalize v.drop (i + 1) = after at hv'
    subst hv'
    have hpivot : u pivot := hu pivot (by simp)
    refine (divideBelow_gives hfloor hu hv).bind ?_
    rintro ⟨below, rest⟩ ⟨hperm, hbelow, hrest⟩
    dsimp only
    split
    · next hnone =>
      -- no element comes before the pivot
      obtain rfl : below = [] := List.isEmpty_iff.mp hnone
      have hfirst : ∀ a ∈ before ++ pivot :: after, (cmp pivot a).isLE := fun a ha =>
        isLE_of_not_lt (hrest a (hperm.mem_iff.mpr ha))
      refine (divideAround_gives (p := fun a => cmp pivot a ≠ .lt)
        (by simp [Std.ReflCmp.compare_self])
        fun a ha => .notLess hpivot (hu a ha)).bind ?_
      rintro ⟨same, above⟩ ⟨hperm', hsame, habove⟩
      have hmem {a : α} (ha : a ∈ same ++ above) : a ∈ before ++ pivot :: after :=
        hperm'.mem_iff.mp ha
      refine (ih none (by simp) (fun a ha => hu a (hmem (by simp [ha]))) (by simp)).bind
        fun out hout => Gives.pure ?_
      have hall := arranges_same (fun a ha => isLE_of_not_lt (hsame a ha))
        (fun a ha => hfirst a (hmem (by simp [ha])))
        (fun a ha => hfirst a (hmem (by simp [ha]))) hout
      exact ⟨hall.perm.trans hperm', hall.rising⟩
    · have hmem {a : α} (ha : a ∈ below ++ rest) : a ∈ before ++ pivot :: after :=
        hperm.mem_iff.mp ha
      have hrest' : ∀ a ∈ rest, (cmp pivot a).isLE := fun a ha => isLE_of_not_lt (hrest a ha)
      refine (ih (some pivot) (by simpa using hpivot) (fun a ha => hu a (hmem (by simp [ha])))
        (by simpa using hrest')).bind fun above hout' => ?_
      refine (ih floor hfloor (fun a ha => hu a (hmem (by simp [ha])))
        fun a ha b hb => hv a ha b (hmem (by simp [hb]))).bind fun out hout => Gives.pure ?_
      have hall := arranges_below (fun a ha => isLE_of_lt (hbelow a ha)) hrest' hout hout'
      exact ⟨hall.perm.trans hperm, hall.rising⟩

end Quick
/-! ### Runs -/

def IsRun (cmp : α → α → Ordering) (falling : Bool) (as : List α) : Prop :=
  if falling then Rising cmp as else Falling cmp as

section Runs

variable [Std.TransCmp cmp]

theorem IsRun.cons {falling : Bool} {a b : α} (h : IsRun cmp falling (a :: as))
    (hb : cmp b a = .lt ↔ falling = true) : IsRun cmp falling (b :: a :: as) := by
  unfold IsRun at h ⊢
  cases falling with
  | true =>
    have hle := isLE_of_lt (hb.mpr rfl)
    refine List.pairwise_cons.mpr ⟨fun c hc => ?_, h⟩
    rcases List.mem_cons.mp hc with rfl | hc
    · exact hle
    · exact Std.TransCmp.isLE_trans hle ((List.pairwise_cons.mp h).1 c hc)
  | false =>
    have hle := isLE_of_not_lt fun hlt => Bool.false_ne_true (hb.mp hlt)
    refine List.pairwise_cons.mpr ⟨fun c hc => ?_, h⟩
    rcases List.mem_cons.mp hc with rfl | hc
    · exact hle
    · exact Std.TransCmp.isLE_trans ((List.pairwise_cons.mp h).1 c hc) hle

theorem follow_gives {falling : Bool} {a : α} {run rest : List α} (ha : u a) (hu : ∀ b ∈ rest, u b)
    (hrun : IsRun cmp falling (a :: run)) :
    (follow falling a run rest).Gives cmp u fun q =>
      (q.1 ++ q.2).Perm (a :: run ++ rest) ∧ IsRun cmp falling q.1 := by
  induction rest generalizing a run with
  | nil => exact Gives.pure ⟨.refl _, hrun⟩
  | cons b bs ih =>
    rw [List.forall_mem_cons] at hu
    refine (Gives.less hu.1 ha).bind fun c hc => ?_
    split
    · next heq =>
      obtain rfl := beq_iff_eq.mp heq
      exact (ih hu.1 hu.2 (hrun.cons hc.symm)).imp fun q hq =>
        ⟨hq.1.trans List.perm_middle.symm, hq.2⟩
    · exact Gives.pure ⟨.refl _, hrun⟩

theorem findRun_gives {v : List α} (hu : ∀ a ∈ v, u a) :
    (findRun v).Gives cmp u fun q => (q.1 ++ q.2).Perm v ∧ Rising cmp q.1 := by
  rcases v with _ | ⟨a, _ | ⟨b, rest⟩⟩
  · exact Gives.pure ⟨.refl _, .nil⟩
  · exact Gives.pure ⟨.refl _, List.pairwise_singleton _ a⟩
  rw [List.forall_mem_cons, List.forall_mem_cons] at hu
  refine (Gives.less hu.2.1 hu.1).bind fun falling hfalling => ?_
  have hrun : IsRun cmp falling [b, a] := by
    refine IsRun.cons ?_ hfalling.symm
    unfold IsRun
    split <;> exact List.pairwise_singleton _ a
  refine (follow_gives hu.2.1 hu.2.2 hrun).bind ?_
  rintro ⟨run, rest'⟩ ⟨hperm, hrun⟩
  have hperm : (run ++ rest').Perm (a :: b :: rest) := hperm.trans (.swap a b rest)
  cases falling with
  | true => exact Gives.pure ⟨hperm, hrun⟩
  | false =>
    exact Gives.pure ⟨((List.reverse_perm run).append_right rest').trans hperm,
      List.pairwise_reverse.mpr hrun⟩

/-! ### Stretches -/

def Stretch.Fair (cmp : α → α → Ordering) (s : Stretch α) : Prop :=
  s.sorted = true → Rising cmp s.elems

/-- A stretch at the start of a list, and what follows it. -/
structure Leads (cmp : α → α → Ordering) (v : List α) (q : Stretch α × List α) : Prop where
  perm : (q.1.elems ++ q.2).Perm v
  fair : q.1.Fair cmp
  shorter : v ≠ [] → q.2.length < v.length

theorem makeStretch_gives {good : Nat} (hgood : 0 < good) (eager : Bool) {v : List α}
    (hu : ∀ a ∈ v, u a) : (makeStretch good eager v).Gives cmp u (Leads cmp v) := by
  have shorter {n : Nat} (hn : 0 < n) (hv : v ≠ []) : (v.drop n).length < v.length := by
    have hpos := List.length_pos_iff.mpr hv
    rw [List.length_drop]
    omega
  unfold makeStretch
  split
  · refine (sortShort_gives fun a ha => hu a (List.mem_of_mem_take ha)).bind fun out hout =>
      Gives.pure ⟨?_, fun _ => hout.rising, shorter (by decide)⟩
    have hall := hout.perm.append_right (v.drop shortLength)
    rwa [List.take_append_drop] at hall
  · exact Gives.pure ⟨by rw [List.take_append_drop], nofun, shorter hgood⟩

theorem nextStretch_gives {good : Nat} (hgood : 0 < good) (eager : Bool) {v : List α}
    (hu : ∀ a ∈ v, u a) : (nextStretch good eager v).Gives cmp u (Leads cmp v) := by
  unfold nextStretch
  split
  · refine (findRun_gives hu).bind ?_
    rintro ⟨run, rest⟩ ⟨hperm, hrun⟩
    dsimp only
    split
    · refine Gives.pure ⟨hperm, fun _ => hrun, fun _ => ?_⟩
      have hlen := hperm.length_eq
      rw [List.length_append] at hlen
      dsimp only at hlen ⊢
      omega
    · exact makeStretch_gives hgood eager hu
  · exact makeStretch_gives hgood eager hu

end Runs

section Merges

variable {sort : List α → Comparing α (List α)}
  (hsort : ∀ v, (∀ a ∈ v, u a) → (sort v).Gives cmp u (Arranges cmp v))

include hsort

theorem settle_gives {s : Stretch α} (hs : s.Fair cmp) (hu : ∀ a ∈ s.elems, u a) :
    (s.settle sort).Gives cmp u (Arranges cmp s.elems) := by
  unfold Stretch.settle
  split
  · next h => exact Gives.pure ⟨.refl _, hs h⟩
  · exact hsort _ hu

variable [Std.TransCmp cmp]

theorem merge_gives (space : Nat) {left right : Stretch α} (hleft : left.Fair cmp)
    (hright : right.Fair cmp) (hu : ∀ a ∈ left.elems ++ right.elems, u a) :
    (left.merge sort space right).Gives cmp u fun s =>
      s.elems.Perm (left.elems ++ right.elems) ∧ s.Fair cmp := by
  unfold Stretch.merge
  split
  · exact Gives.pure ⟨.refl _, nofun⟩
  refine (settle_gives hsort hleft fun a ha => hu a (List.mem_append_left _ ha)).bind
    fun as has => ?_
  refine (settle_gives hsort hright fun a ha => hu a (List.mem_append_right _ ha)).bind
    fun bs hbs => ?_
  have hperm := has.perm.append hbs.perm
  refine (mergeRuns_gives has.rising hbs.rising fun a ha => hu a (hperm.mem_iff.mp ha)).bind
    fun out hout => Gives.pure ⟨hout.perm.trans hperm, fun _ => hout.rising⟩

end Merges

def pending (stack : List (Stretch α × Nat)) : List α := stack.flatMap fun p => p.1.elems

/-- Stretches that are not merged yet have the elements of `v`. -/
structure Holds (cmp : α → α → Ordering) (v : List α) (q : List (Stretch α × Nat) × Stretch α) :
    Prop where
  perm : (pending q.1 ++ q.2.elems).Perm v
  fair : ∀ p ∈ q.1, p.1.Fair cmp
  fair_last : q.2.Fair cmp

theorem goodLength_pos {n : Nat} (hn : 0 < n) : 0 < goodLength n := by
  unfold goodLength
  split
  · omega
  · have hor : n ≤ n ||| 1 := Nat.left_le_or
    have hlog : 1 ≤ (n ||| 1).log2 := (Nat.le_log2 (by omega)).mpr (by omega)
    have hshift : 2 ^ 1 ≤ 1 <<< ((1 + (n ||| 1).log2) / 2) := by
      rw [Nat.one_shiftLeft]
      exact Nat.pow_le_pow_right (by decide) (by omega)
    exact Nat.div_pos (Nat.le_add_right_of_le hshift) (by decide)

section Stretches

variable [Std.TransCmp cmp] {sort : List α → Comparing α (List α)}
  (hsort : ∀ v, (∀ a ∈ v, u a) → (sort v).Gives cmp u (Arranges cmp v))

include hsort

theorem collapse_gives (space depth : Nat) {v : List α} (hu : ∀ a ∈ v, u a)
    {stack : List (Stretch α × Nat)} {last : Stretch α} (h : Holds cmp v (stack, last)) :
    (collapse sort space depth stack last).Gives cmp u fun q =>
      Holds cmp v q ∧ (depth = 0 → q.1 = []) := by
  induction stack generalizing last with
  | nil => exact Gives.pure ⟨h, fun _ => rfl⟩
  | cons p stack ih =>
    obtain ⟨left, d⟩ := p
    obtain ⟨hperm, hfair, hlast⟩ := h
    rw [List.forall_mem_cons] at hfair
    rw [collapse]
    split
    · have hperm : (pending stack ++ (left.elems ++ last.elems)).Perm v := by
        rw [← List.append_assoc]
        exact (List.perm_append_comm.append_right last.elems).trans hperm
      have hmem : ∀ a ∈ left.elems ++ last.elems, u a := fun a ha =>
        hu a (hperm.mem_iff.mp (List.mem_append_right _ ha))
      refine (merge_gives hsort space hfair.1 hlast hmem).bind fun s hs => ?_
      exact ih ⟨(hs.1.append_left _).trans hperm, hfair.2, hs.2⟩
    · next hdepth =>
      refine Gives.pure ⟨⟨hperm, List.forall_mem_cons.mpr hfair, hlast⟩, fun hzero => ?_⟩
      exact absurd (hzero ▸ Nat.zero_le d) hdepth

theorem collapse_all {p : Plan α} (hp : p.sort = sort) {v : List α} (hu : ∀ a ∈ v, u a)
    {stack : List (Stretch α × Nat)} {last : Stretch α} (h : Holds cmp v (stack, last))
    (n place : Nat) : (addStretches p n place stack last []).Gives cmp u fun s =>
      s.elems.Perm v ∧ s.Fair cmp := by
  subst hp
  have heq : addStretches p n place stack last [] =
      (collapse p.sort p.space 0 stack last >>= fun q => pure q.2) := by
    cases n <;> rfl
  rw [heq]
  refine (collapse_gives hsort p.space 0 hu h).bind ?_
  rintro ⟨stack', last'⟩ ⟨⟨hperm, -, hlast⟩, hnil⟩
  obtain rfl : stack' = [] := hnil rfl
  exact Gives.pure ⟨hperm, hlast⟩

/-- Every stretch that is found takes something, so as many as there are elements are enough. -/
theorem addStretches_gives {p : Plan α} (hp : p.sort = sort) (hgood : 0 < p.good) {v : List α}
    (hu : ∀ a ∈ v, u a) (n place : Nat) {stack : List (Stretch α × Nat)} {last : Stretch α}
    {rest : List α} (hrest : rest.length ≤ n) {found : List α} (h : Holds cmp found (stack, last))
    (hv : (found ++ rest).Perm v) :
    (addStretches p n place stack last rest).Gives cmp u fun s => s.elems.Perm v ∧ s.Fair cmp := by
  have hmem {a : α} (ha : a ∈ found ++ rest) : u a := hu a (hv.mem_iff.mp ha)
  induction n generalizing place stack last rest found with
  | zero =>
    obtain rfl : rest = [] := List.eq_nil_of_length_eq_zero (by omega)
    rw [List.append_nil] at hv hmem
    exact (collapse_all hsort hp (fun a ha => hmem ha) h 0 place).imp fun s hs =>
      ⟨hs.1.trans hv, hs.2⟩
  | succ n ih =>
    cases rest with
    | nil =>
      rw [List.append_nil] at hv hmem
      exact (collapse_all hsort hp (fun a ha => hmem ha) h (n + 1) place).imp fun s hs =>
        ⟨hs.1.trans hv, hs.2⟩
    | cons b bs =>
      rw [addStretches]
      refine (nextStretch_gives hgood p.eager fun a ha => hmem (List.mem_append_right _ ha)).bind ?_
      rintro ⟨next, rest'⟩ hnext
      have hfound : ∀ a ∈ found, u a := fun a ha => hmem (List.mem_append_left _ ha)
      refine (collapse_gives (hp ▸ hsort) p.space _ hfound h).bind ?_
      rintro ⟨stack', last'⟩ ⟨⟨hperm, hfair, hlast⟩, -⟩
      have hnow (depth : Nat) : Holds cmp (found ++ next.elems) ((last', depth) :: stack', next) :=
        ⟨((List.perm_append_comm.trans hperm).append_right next.elems),
          List.forall_mem_cons.mpr ⟨hlast, hfair⟩, hnext.fair⟩
      have hv' : (found ++ next.elems ++ rest').Perm v := by
        rw [List.append_assoc]
        exact (hnext.perm.append_left found).trans hv
      have hshorter := hnext.shorter (List.cons_ne_nil b bs)
      dsimp only at hshorter
      exact ih _ (by omega) (hnow _) hv' fun ha => hu _ (hv'.mem_iff.mp ha)

theorem sortStretches_gives (eager : Bool) (space : Nat) {v : List α} (hne : v ≠ [])
    (hu : ∀ a ∈ v, u a) : (sortStretches eager sort space v).Gives cmp u (Arranges cmp v) := by
  have hgood : 0 < goodLength v.length := goodLength_pos (List.length_pos_iff.mpr hne)
  refine (nextStretch_gives hgood eager hu).bind ?_
  rintro ⟨first, rest⟩ ⟨hperm, hfair, -⟩
  have hfirst : Holds cmp first.elems ([], first) := ⟨.refl _, nofun, hfair⟩
  refine (addStretches_gives hsort rfl hgood hu _ _ (Nat.le_refl _) hfirst hperm).bind ?_
  rintro whole ⟨hperm', hfair'⟩
  have hmem : ∀ b ∈ whole.elems, u b := fun b hb => hu b (hperm'.mem_iff.mp hb)
  exact (settle_gives hsort hfair' hmem).imp fun out hout =>
    ⟨hout.perm.trans hperm', hout.rising⟩

end Stretches

section Whole

variable [Std.TransCmp cmp]

theorem sortByDivision_gives (space : Nat) {v : List α} (hu : ∀ a ∈ v, u a) :
    (sortByDivision space v).Gives cmp u (Arranges cmp v) :=
  quicksort_gives (fun _ hne hw => sortStretches_gives (fun _ => sortShort_gives) true space hne hw)
    _ none (by simp) hu (by simp)

/-- With the answers of any order the sort does not give up, and puts the list into that order. -/
theorem stableSort_gives (cmp : α → α → Ordering) [Std.TransCmp cmp] (v : List α) :
    (stableSort v).Gives cmp (· ∈ v) (Arranges cmp v) := by
  unfold stableSort
  split
  · exact insertionSort_gives fun _ h => h
  · next hlong =>
    exact sortStretches_gives (fun _ hw => sortByDivision_gives _ hw) _ _
      (fun hv => hlong (hv ▸ Nat.zero_le _)) fun _ h => h

end Whole

/-- Up to 20 elements are sorted whatever the answers are. -/
theorem stableSort_steady {v : List α} (h : v.length ≤ 20) : (stableSort v).Steady := by
  rw [stableSort, if_pos h]
  exact insertionSort_steady v

end Comparing
end TreeQuery
