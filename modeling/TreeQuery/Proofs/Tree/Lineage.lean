import Mathlib.Data.List.Basic
import TreeQuery.Tree.Lineage
/-!
# Document order as an order on each tree

The place of a node are the numbers of the branches that lead down to it from the root, and two
nodes of a tree are compared by their places (`Lineage.compareOrder_eq`). All laws of the order
follow from those of comparing lists of numbers: `Lineage.OrdersDocument` lists them, and
`compareOrder_ordersDocument` has them of nodes of any kind and of the nodes of a forest.
-/

namespace TreeQuery
namespace Lineage

variable {N : Type} {L : Lineage N} {a b c n p : N}

/-! ### Walking up -/

theorem ancestors_top (h : L.parent n = none) : L.ancestors n = [] := by
  rw [ancestors]
  split
  · rfl
  · next h' => rw [h] at h'; cases h'

theorem ancestors_step (h : L.parent n = some p) : L.ancestors n = p :: L.ancestors p := by
  rw [ancestors]
  split
  · next h' => rw [h] at h'; cases h'
  · next h' => rw [h] at h'; cases h'; rfl

/-- What holds at the top and is handed down from parents holds of all nodes. -/
@[elab_as_elim]
theorem downwards {motive : N → Prop} (n : N) (top : ∀ n, L.parent n = none → motive n)
    (step : ∀ n p, L.parent n = some p → motive p → motive n) : motive n := by
  induction n using L.wellFounded.induction with
  | h n ih =>
    cases hparent : L.parent n with
    | none => exact top n hparent
    | some p => exact step n p hparent (ih p hparent)

theorem root_top (h : L.parent n = none) : L.root n = n := by
  rw [root, ancestors_top h]
  rfl

theorem root_step (h : L.parent n = some p) : L.root n = L.root p := by
  rw [root, ancestors_step h, root, List.getLast?_cons]
  cases (L.ancestors p).getLast? <;> rfl

theorem pathFromRoot_top (h : L.parent n = none) : L.pathFromRoot n = [n] := by
  rw [pathFromRoot, ancestors_top h]
  rfl

theorem pathFromRoot_step (h : L.parent n = some p) :
    L.pathFromRoot n = L.pathFromRoot p ++ [n] := by
  rw [pathFromRoot, pathFromRoot, ancestors_step h, List.reverse_cons]

theorem mem_listed (h : L.parent n = some p) : n ∈ L.listed p := L.listed_of_parent n p h

/-- A path that leads down from `above`, each node being the parent of the next one. -/
def LeadsDown (L : Lineage N) (above : N) : List N → Prop
  | [] => True
  | n :: ns => L.parent n = some above ∧ LeadsDown L n ns

theorem LeadsDown.append {above : N} {ns : List N} (h : L.LeadsDown above ns)
    (hn : L.parent n = some ((above :: ns).getLast (List.cons_ne_nil _ _))) :
    L.LeadsDown above (ns ++ [n]) := by
  induction ns generalizing above with
  | nil => exact ⟨hn, trivial⟩
  | cons m ns ih => exact ⟨h.1, ih h.2 hn⟩

theorem pathFromRoot_eq (n : N) : ∃ ns, L.pathFromRoot n = L.root n :: ns ∧
    L.LeadsDown (L.root n) ns ∧
    (L.root n :: ns).getLast (List.cons_ne_nil _ _) = n := by
  induction n using downwards (L := L) with
  | top n h =>
    rw [root_top h, pathFromRoot_top h]
    exact ⟨[], rfl, trivial, rfl⟩
  | step n p h ih =>
    obtain ⟨ns, hpath, hdown, hlast⟩ := ih
    rw [root_step h, pathFromRoot_step h, hpath]
    refine ⟨ns ++ [n], rfl, hdown.append (by rw [hlast, h]), ?_⟩
    simp

def Under (L : Lineage N) (a n : N) : Prop := a = n ∨ a ∈ L.ancestors n

theorem Under.refl (L : Lineage N) (n : N) : L.Under n n := .inl rfl

theorem under_step (h : L.parent n = some p) : L.Under a n ↔ a = n ∨ L.Under a p := by
  rw [Under, Under, ancestors_step h, List.mem_cons]

theorem Under.trans (hab : L.Under a b) (hbn : L.Under b n) : L.Under a n := by
  induction n using downwards (L := L) with
  | top n h =>
    rcases hbn with rfl | hbn
    · exact hab
    · rw [ancestors_top h] at hbn
      cases hbn
  | step n p h ih =>
    rcases (under_step h).mp hbn with rfl | hbn
    · exact hab
    · exact (under_step h).mpr (.inr (ih hbn))

/-! ### Places -/

variable [DecidableEq N]

def branch (L : Lineage N) (above n : N) : Nat := (L.listed above).idxOf n

def branches (L : Lineage N) (above : N) : List N → List Nat
  | [] => []
  | n :: ns => L.branch above n :: branches L n ns

/-- The numbers of the branches from the root down to a node. -/
def place (L : Lineage N) (n : N) : List Nat :=
  match L.pathFromRoot n with
  | [] => []
  | r :: ns => L.branches r ns

theorem branch_inj (ha : L.parent a = some p) (h : L.branch p a = L.branch p b) : a = b :=
  (List.idxOf_inj (mem_listed ha)).mp h

theorem branches_append (above : N) (ns : List N) (n : N) : L.branches above (ns ++ [n]) =
    L.branches above ns ++ [L.branch ((above :: ns).getLast (List.cons_ne_nil _ _)) n] := by
  induction ns generalizing above with
  | nil => rfl
  | cons m ns ih =>
    show L.branch above m :: L.branches m (ns ++ [n]) = _
    rw [ih m]
    rfl

theorem place_top (h : L.parent n = none) : L.place n = [] := by
  rw [place, pathFromRoot_top h]
  rfl

theorem place_step (h : L.parent n = some p) : L.place n = L.place p ++ [L.branch p n] := by
  obtain ⟨ns, hpath, -, hlast⟩ := L.pathFromRoot_eq p
  rw [place, place, pathFromRoot_step h, hpath]
  show L.branches (L.root p) (ns ++ [n]) = _
  rw [branches_append, hlast]

theorem eq_of_place (hroot : L.root a = L.root b) (hplace : L.place a = L.place b) : a = b := by
  induction a using downwards (L := L) generalizing b with
  | top a ha =>
    cases hb : L.parent b with
    | none => rwa [root_top ha, root_top hb] at hroot
    | some q =>
      rw [place_top ha, place_step hb] at hplace
      simp at hplace
  | step a p ha ih =>
    cases hb : L.parent b with
    | none =>
      rw [place_step ha, place_top hb] at hplace
      simp at hplace
    | some q =>
      rw [root_step ha, root_step hb] at hroot
      rw [place_step ha, place_step hb] at hplace
      obtain ⟨hplace, hbranch⟩ := List.append_inj' hplace rfl
      obtain rfl := ih hroot hplace
      exact branch_inj ha (List.cons.inj hbranch).1

theorem compareSiblings_eq (ha : L.parent a = some p) (hb : L.parent b = some p) :
    L.compareSiblings p a b = compare (L.branch p a) (L.branch p b) := by
  have index {n : N} (h : L.parent n = some p) : (L.listed p).idxOf? n = some (L.branch p n) := by
    obtain ⟨i, hi⟩ := Option.isSome_iff_exists.mp (List.isSome_idxOf?.mpr (mem_listed h))
    rw [branch, List.idxOf_eq_getD_idxOf?, hi]
    rfl
  simp only [compareSiblings, index ha, index hb]

theorem comparePaths_eq {above : N} {as bs : List N} (has : L.LeadsDown above as)
    (hbs : L.LeadsDown above bs) :
    L.comparePaths above as bs = compare (L.branches above as) (L.branches above bs) := by
  induction as generalizing above bs with
  | nil => cases bs <;> rfl
  | cons a as ih =>
    cases bs with
    | nil => rfl
    | cons b bs =>
      rw [comparePaths, branches, branches, List.compare_cons_cons]
      by_cases hab : a = b
      · subst hab
        rw [if_pos rfl, ih has.2 hbs.2, Std.ReflOrd.compare_self, Ordering.eq_then]
      · -- the paths part here, at branches with different numbers
        have hne : compare (L.branch above a) (L.branch above b) ≠ .eq := by
          intro heq
          exact hab (branch_inj has.1 (Std.LawfulEqOrd.eq_of_compare heq))
        rw [if_neg hab, compareSiblings_eq has.1 hbs.1]
        cases hcompare : compare (L.branch above a) (L.branch above b) with
        | eq => exact absurd hcompare hne
        | lt | gt => rfl

/-- Nodes of one tree are compared by their places; nodes of different trees are not compared. -/
theorem compareOrder_eq (a b : N) : L.compareOrder a b =
    if L.root a = L.root b then .ok (compare (L.place a) (L.place b)) else
    .error (.of .unorderable) := by
  obtain ⟨as, ha, hdown, -⟩ := L.pathFromRoot_eq a
  obtain ⟨bs, hb, hdown', -⟩ := L.pathFromRoot_eq b
  simp only [compareOrder, place, ha, hb]
  split
  · next hroot => rw [hroot] at hdown ⊢; rw [comparePaths_eq hdown hdown']
  · rfl

/-! ### The order -/

def Before (L : Lineage N) (a b : N) : Prop := L.compareOrder a b = .ok .lt

theorem before_iff : L.Before a b ↔ L.root a = L.root b ∧
    compare (L.place a) (L.place b) = .lt := by
  rw [Before, compareOrder_eq]
  split
  · next hroot => simp [hroot]
  · next hroot => simp [hroot]

theorem eq_or_before (hroot : L.root a = L.root b)
    (h : (compare (L.place a) (L.place b)).isLE = true) : a = b ∨ L.Before a b := by
  cases hcompare : compare (L.place a) (L.place b) with
  | lt => exact .inr (before_iff.mpr ⟨hroot, hcompare⟩)
  | eq => exact .inl (eq_of_place hroot (Std.LawfulEqOrd.eq_of_compare hcompare))
  | gt =>
    rw [hcompare] at h
    cases h

theorem Before.trans (hab : L.Before a b) (hbc : L.Before b c) : L.Before a c := by
  rw [before_iff] at *
  exact ⟨hab.1.trans hbc.1, Std.TransCmp.lt_trans hab.2 hbc.2⟩

theorem not_before_self : ¬L.Before a a := by
  rw [before_iff, Std.ReflOrd.compare_self]
  exact fun h => Ordering.noConfusion h.2

theorem compareOrder_eq_error {e : Error} :
    L.compareOrder a b = .error e ↔ L.root a ≠ L.root b ∧ e = .of .unorderable := by
  rw [compareOrder_eq]
  split
  · next hroot => simp [hroot]
  · next hroot => simp [hroot, eq_comm]

theorem compareOrder_eq_ok_eq : L.compareOrder a b = .ok .eq ↔ a = b := by
  rw [compareOrder_eq]
  constructor
  · intro h
    split at h
    · next hroot => exact eq_of_place hroot (Std.LawfulEqOrd.eq_of_compare (Except.ok.inj h))
    · cases h
  · rintro rfl
    rw [if_pos rfl, Std.ReflOrd.compare_self]

theorem compareOrder_swap (a b : N) :
    L.compareOrder b a = (L.compareOrder a b).map Ordering.swap := by
  rw [compareOrder_eq, compareOrder_eq]
  by_cases hroot : L.root a = L.root b
  · have hswap : compare (L.place b) (L.place a) = (compare (L.place a) (L.place b)).swap :=
      Std.OrientedCmp.eq_swap
    rw [if_pos hroot, if_pos hroot.symm, hswap]
    rfl
  · rw [if_neg hroot, if_neg (Ne.symm hroot)]
    rfl

/-! ### Above and below -/

theorem Under.place (h : L.Under a n) :
    L.root n = L.root a ∧ ∃ rest, L.place n = L.place a ++ rest := by
  induction n using downwards (L := L) with
  | top n hn =>
    rcases h with rfl | h
    · exact ⟨rfl, [], (List.append_nil _).symm⟩
    · rw [ancestors_top hn] at h
      cases h
  | step n p hn ih =>
    rcases (under_step hn).mp h with rfl | h
    · exact ⟨rfl, [], (List.append_nil _).symm⟩
    · obtain ⟨hroot, rest, hplace⟩ := ih h
      refine ⟨by rw [root_step hn, hroot], rest ++ [L.branch p n], ?_⟩
      rw [place_step hn, hplace, List.append_assoc]

theorem compare_append_left (u s t : List Nat) : compare (u ++ s) (u ++ t) = compare s t := by
  induction u with
  | nil => rfl
  | cons i u ih =>
    rw [List.cons_append, List.cons_append, List.compare_cons_cons, Std.ReflOrd.compare_self,
      Ordering.eq_then, ih]

theorem parent_before (h : L.parent b = some a) (hn : L.Under b n) : L.Before a n := by
  obtain ⟨hroot, rest, hplace⟩ := hn.place
  refine before_iff.mpr ⟨by rw [hroot, root_step h], ?_⟩
  rw [hplace, place_step h, List.append_assoc]
  have := compare_append_left (L.place a) [] ([L.branch a b] ++ rest)
  rwa [List.append_nil] at this

theorem before_of_branches (ha : L.parent a = some p) (hb : L.parent b = some p)
    (hlt : L.branch p a < L.branch p b) {m : N} (hn : L.Under a n) (hm : L.Under b m) :
    L.Before n m := by
  obtain ⟨hroot, rest, hplace⟩ := hn.place
  obtain ⟨hroot', rest', hplace'⟩ := hm.place
  refine before_iff.mpr ⟨by rw [hroot, hroot', root_step ha, root_step hb], ?_⟩
  rw [hplace, hplace', place_step ha, place_step hb, List.append_assoc, List.append_assoc,
    compare_append_left, List.singleton_append, List.singleton_append, List.compare_cons_cons,
    Nat.compare_eq_lt.mpr hlt]
  rfl

theorem before_of_mem_ancestors (h : a ∈ L.ancestors n) : L.Before a n := by
  induction n using downwards (L := L) with
  | top n hn =>
    rw [ancestors_top hn] at h
    cases h
  | step n p hn ih =>
    have hbefore := parent_before hn (.refl L n)
    rw [ancestors_step hn] at h
    rcases List.mem_cons.mp h with rfl | h
    · exact hbefore
    · exact (ih h).trans hbefore

theorem branches_pairwise (h : (L.listed p).Nodup) :
    (L.listed p).Pairwise fun a b => L.branch p a < L.branch p b := by
  rw [List.pairwise_iff_getElem]
  intro i j hi hj hij
  have index {k : Nat} (hk : k < (L.listed p).length) : L.branch p (L.listed p)[k] = k :=
    h.idxOf_getElem k hk
  rwa [index hi, index hj]

theorem listed_pairwise (h : (L.listed p).Nodup) : (L.listed p).Pairwise fun a b =>
    L.parent a = some p → L.parent b = some p → ∀ m n, L.Under a m → L.Under b n → L.Before m n :=
  (branches_pairwise h).imp fun hlt ha hb _ _ hm hn => before_of_branches ha hb hlt hm hn

/-! ### The laws -/

/-- The function puts nodes into document order: it fails exactly for nodes of different trees, on
each tree it is a strict total order with all nodes after their ancestors, and what is below the
nodes that a node lists, each of them once, comes in the order of the list, as far as they are its
own. -/
structure OrdersDocument (L : Lineage N) (order : N → N → Except Error Ordering) : Prop where
  error_iff : ∀ a b e, order a b = .error e ↔ L.root a ≠ L.root b ∧ e = .of .unorderable
  eq_iff : ∀ a b, order a b = .ok .eq ↔ a = b
  swap : ∀ a b, order b a = (order a b).map Ordering.swap
  trans : ∀ a b c, order a b = .ok .lt → order b c = .ok .lt → order a c = .ok .lt
  above : ∀ a n, a ∈ L.ancestors n → order a n = .ok .lt
  listed : ∀ p, (L.attributes p ++ L.namespaces p ++ L.children p).Nodup →
    (L.attributes p ++ L.namespaces p ++ L.children p).Pairwise fun a b =>
      L.parent a = some p → L.parent b = some p → ∀ m n, L.Under a m → L.Under b n →
        order m n = .ok .lt

theorem ordersDocument (L : Lineage N) : L.OrdersDocument L.compareOrder where
  error_iff _ _ _ := compareOrder_eq_error
  eq_iff _ _ := compareOrder_eq_ok_eq
  swap := compareOrder_swap
  trans _ _ _ := Before.trans
  above _ _ := before_of_mem_ancestors
  listed _ := listed_pairwise

end Lineage
end TreeQuery
