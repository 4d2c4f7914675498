import TreeQuery.Proofs.Sorting.Stable
import TreeQuery.Proofs.Tree.Order
/-!
# Putting nodes into document order

The sort is not told that nodes of different trees have no order. As long as no failure is met, the
answers would be the same if one of the trees came before all others or behind them, and a right
sort would have to come to different results: so a sort that has met no failure has sorted nodes of
one tree (`Lineage.roots_of_collect`). On such nodes the order is total, and runs of one node shrink
to it, so that what is left is strictly increasing: `Lineage.sortDistinct_puts`, for nodes of any
kind, and `Forest.sortNodes_puts`.
-/

namespace TreeQuery

/-! ### Repetitions -/

theorem eraseRepsBy_loop_append {α : Type} (r : α → α → Bool) (as : List α) (a : α) (acc : List α) :
    List.eraseRepsBy.loop r a as acc = acc.reverse ++ List.eraseRepsBy.loop r a as [] := by
  induction as generalizing a acc with
  | nil => simp [List.eraseRepsBy.loop]
  | cons b as ih =>
    unfold List.eraseRepsBy.loop
    cases r a b with
    | true => exact ih a acc
    | false =>
      show List.eraseRepsBy.loop r b as (a :: acc) =
        acc.reverse ++ List.eraseRepsBy.loop r b as [a]
      rw [ih b (a :: acc), ih b [a]]
      simp

theorem eraseReps_cons_cons {α : Type} [BEq α] [LawfulBEq α] (a b : α) (as : List α) :
    (a :: b :: as).eraseReps =
      if a == b then (b :: as).eraseReps else a :: (b :: as).eraseReps := by
  show List.eraseRepsBy.loop (· == ·) a (b :: as) [] = _
  rw [List.eraseRepsBy.loop]
  cases hab : a == b with
  | true =>
    obtain rfl := eq_of_beq hab
    rfl
  | false => exact eraseRepsBy_loop_append (· == ·) as b [a]

theorem mem_eraseReps {α : Type} [BEq α] [LawfulBEq α] {x : α} {as : List α} :
    x ∈ as.eraseReps ↔ x ∈ as := by
  induction as with
  | nil => rfl
  | cons a as ih =>
    cases as with
    | nil => rfl
    | cons b as =>
      rw [eraseReps_cons_cons]
      split
      · next hab =>
        obtain rfl := eq_of_beq hab
        rw [ih]
        simp
      · rw [List.mem_cons, ih, List.mem_cons (a := x) (b := a)]

theorem pairwise_eraseReps {α : Type} [BEq α] [LawfulBEq α] {r : α → α → Prop}
    (htrans : ∀ a b c, r a b → r b c → r a c) {as : List α}
    (h : as.Pairwise fun a b => a = b ∨ r a b) : as.eraseReps.Pairwise r := by
  induction as with
  | nil => exact .nil
  | cons a as ih =>
    cases as with
    | nil => exact List.pairwise_singleton r a
    | cons b as =>
      have hrest : (b :: as).eraseReps.Pairwise r := ih (List.pairwise_cons.mp h).2
      rw [eraseReps_cons_cons]
      cases hab : a == b with
      | true => exact hrest
      | false =>
        have hfirst : r a b :=
          ((List.pairwise_cons.mp h).1 b List.mem_cons_self).resolve_left (ne_of_beq_false hab)
        refine List.pairwise_cons.mpr ⟨fun c hc => ?_, hrest⟩
        rcases List.mem_cons.mp (mem_eraseReps.mp hc) with rfl | hc
        · exact hfirst
        · rcases (List.pairwise_cons.mp (List.pairwise_cons.mp h).2).1 c hc with rfl | hbc
          · exact hfirst
          · exact htrans a b c hfirst hbc

/-! ### Nodes of any kind -/

namespace Lineage

variable {N : Type} [DecidableEq N] {L : Lineage N} {nodes : List N}

/-- A total comparison that has the tree under `r` before all other trees or after them. -/
def compareApart (L : Lineage N) (r : N) (front : Bool) : N → N → Ordering :=
  compareLex (compareOn fun n => decide (L.root n = r) ^^ front) (compareOn L.place)

instance (r : N) (front : Bool) : Std.TransCmp (L.compareApart r front) :=
  inferInstanceAs (Std.TransCmp (compareLex _ _))

theorem compareApart_of_ok {r : N} {front : Bool} {a b : N} {o : Ordering}
    (h : L.compareOrder a b = .ok o) : L.compareApart r front a b = o := by
  rw [compareOrder_eq] at h
  split at h
  · next hroot =>
    obtain rfl := Except.ok.inj h
    simp [compareApart, compareLex, compareOn, hroot]
  · cases h

theorem root_iff_of_compareApart {r a b : N} (hfront : (L.compareApart r true a b).isLE = true)
    (hback : (L.compareApart r false a b).isLE = true) : L.root a = r ↔ L.root b = r := by
  have side (front : Bool) (h : (L.compareApart r front a b).isLE = true) :
      (compare (decide (L.root a = r) ^^ front) (decide (L.root b = r) ^^ front)).isLE = true := by
    rw [compareApart, compareLex, compareOn, Ordering.isLE_then_iff_and] at h
    exact h.1
  have both : ∀ x y : Bool, (compare (x ^^ true) (y ^^ true)).isLE = true →
      (compare (x ^^ false) (y ^^ false)).isLE = true → x = y := by decide
  exact decide_eq_decide.mp (both _ _ (side true hfront) (side false hback))

theorem roots_of_collect {out : List N}
    (h : (Comparing.stableSort nodes).collect L.compareOrder none = some (none, out)) :
    ∀ a ∈ nodes, ∀ b ∈ nodes, L.root a = L.root b := by
  intro a ha b hb
  -- the result is right with the tree of `a` in front of the others and behind them
  have arranged (front : Bool) : Comparing.Arranges (L.compareApart (L.root a) front) nodes out :=
    Comparing.Gives.of_collect (fun _ _ _ => compareApart_of_ok) h
      (Comparing.stableSort_gives _ nodes)
  have hsides : out.Pairwise fun x y => L.root x = L.root a ↔ L.root y = L.root a :=
    ((arranged true).rising.and (arranged false).rising).imp fun h =>
      root_iff_of_compareApart h.1 h.2
  have symm : Std.Symm fun x y => L.root x = L.root a ↔ L.root y = L.root a :=
    ⟨fun _ _ h => h.symm⟩
  have hmem {n : N} (hn : n ∈ nodes) : n ∈ out := (arranged true).perm.mem_iff.mpr hn
  by_cases heq : a = b
  · rw [heq]
  · exact ((hsides.forall (hmem ha) (hmem hb) heq).mp rfl).symm

/-- On nodes of one tree the sort meets no failure, and sorts them by their places. -/
theorem collect_of_roots (h : ∀ a ∈ nodes, ∀ b ∈ nodes, L.root a = L.root b) :
    ∃ out, (Comparing.stableSort nodes).collect L.compareOrder none = some (none, out) ∧
      Comparing.Arranges (compareOn L.place) nodes out := by
  refine Comparing.Gives.collect_eq (fun a b ha hb => ?_) none (Comparing.stableSort_gives _ nodes)
  rw [compareOrder_eq, if_pos (h a ha b hb)]
  rfl

/-- Nodes of one tree are put into document order, each once. If nodes are of different trees, that
is found out, unless there are more than 20 and the sort gives up. -/
structure PutsInOrder (L : Lineage N) (nodes : List N) (result : Except Failure (List N)) :
    Prop where
  gives : (∀ a ∈ nodes, ∀ b ∈ nodes, L.root a = L.root b) →
    ∃ ordered, result = .ok ordered ∧ ordered.Pairwise L.Before ∧ ∀ n, n ∈ ordered ↔ n ∈ nodes
  fails : ∀ a ∈ nodes, ∀ b ∈ nodes, L.root a ≠ L.root b →
    result = .error (.of .unorderable) ∨ result = .error .aborted ∧ 20 < nodes.length

theorem sortDistinct_puts (L : Lineage N) (nodes : List N) :
    L.PutsInOrder nodes (sortDistinct L.compareOrder nodes) where
  gives hroot := by
    obtain ⟨out, hcollect, hperm, hrising⟩ := collect_of_roots hroot
    have hweak : out.Pairwise fun a b => a = b ∨ L.Before a b :=
      hrising.imp_of_mem fun {a b} ha hb hle =>
        eq_or_before (hroot a (hperm.mem_iff.mp ha) b (hperm.mem_iff.mp hb)) hle
    refine ⟨out.eraseReps, ?_, pairwise_eraseReps (fun _ _ _ => Before.trans) hweak, fun n => ?_⟩
    · rw [sortDistinct, hcollect]
    · rw [mem_eraseReps, hperm.mem_iff]
  fails a ha b hb hroot := by
    unfold sortDistinct
    split
    · next out hcollect => exact absurd (roots_of_collect hcollect a ha b hb) hroot
    · next e out hcollect =>
      obtain hnone | ⟨x, y, he⟩ := Comparing.Gives.failure_of_collect hcollect
      · cases hnone
      · rw [(compareOrder_eq_error.mp he).2]
        exact .inl rfl
    · next hcollect =>
      refine .inr ⟨rfl, Nat.lt_of_not_le fun hlen => ?_⟩
      exact (Comparing.stableSort_steady hlen).collect_ne_none none hcollect

namespace PutsInOrder

variable {result : Except Failure (List N)} {ordered : List N}

theorem roots (h : L.PutsInOrder nodes (.ok ordered)) :
    ∀ a ∈ nodes, ∀ b ∈ nodes, L.root a = L.root b := by
  intro a ha b hb
  by_contra hroot
  rcases h.fails a ha b hb hroot with herror | ⟨herror, -⟩
  · cases herror
  · cases herror

theorem ordered_of_ok (h : L.PutsInOrder nodes (.ok ordered)) :
    ordered.Pairwise L.Before ∧ ∀ n, n ∈ ordered ↔ n ∈ nodes := by
  obtain ⟨ordered', heq, hordered⟩ := h.gives h.roots
  obtain rfl := Except.ok.inj heq
  exact hordered

theorem nodup (h : L.PutsInOrder nodes (.ok ordered)) : ordered.Nodup :=
  h.ordered_of_ok.1.imp (S := (· ≠ ·)) fun hab heq => not_before_self (heq ▸ hab)

end PutsInOrder
end Lineage

/-! ### Nodes of a forest -/

namespace Forest

variable {f : Forest} {nodes sorted : List NodeId}

theorem sortNodes_puts (f : Forest) (nodes : List NodeId) :
    f.lineage.PutsInOrder nodes (f.sortNodes nodes) := by
  have horder : f.lineage.compareOrder = f.compareOrder :=
    funext fun a => funext (f.lineage_compareOrder a)
  rw [sortNodes, ← horder]
  exact f.lineage.sortDistinct_puts nodes

theorem sortNodes_pairwise (h : f.sortNodes nodes = .ok sorted) : sorted.Pairwise f.Before :=
  (h ▸ f.sortNodes_puts nodes).ordered_of_ok.1.imp lineage_before.mp

theorem mem_sortNodes (h : f.sortNodes nodes = .ok sorted) {n : NodeId} : n ∈ sorted ↔ n ∈ nodes :=
  (h ▸ f.sortNodes_puts nodes).ordered_of_ok.2 n

theorem sortNodes_ok (h : f.sortNodes nodes = .ok sorted) :
    sorted.length ≤ nodes.length ∧ (nodes ≠ [] → sorted ≠ []) := by
  have hputs := h ▸ f.sortNodes_puts nodes
  refine ⟨(List.subperm_of_subset hputs.nodup fun n => (mem_sortNodes h).mp).length_le, ?_⟩
  intro hne hnil
  obtain ⟨n, hn⟩ := List.exists_mem_of_ne_nil nodes hne
  have hmem := (mem_sortNodes h).mpr hn
  rw [hnil] at hmem
  cases hmem

end Forest
end TreeQuery
