import TreeQuery.Proofs.Tree.Lineage
import TreeQuery.Tree.Draft
/-!
# Document order in a forest

Walks up in a forest take as many steps as it has nodes at most, and none beyond the root. So a
forest compares its nodes as their lineage does (`Forest.lineage_compareOrder`), and `Forest.Before`
has the laws of document order by ancestry. `compareOrder_ordersDocument` states them for nodes of
any kind and for those of a forest.
-/

namespace TreeQuery
namespace Forest

variable {f : Forest} {a b c n p : Nat}

/-! ### Walking up -/

theorem parent_of_size_le (h : f.size ≤ n) : f.parent n = none := by
  rw [parent, Array.getElem?_eq_none (by rw [f.size_parents]; exact h)]
  rfl

theorem parent_bounds (h : f.parent n = some p) : n < p ∧ p < f.size :=
  ⟨lt_parent h, parent_lt_size h⟩

theorem ancestorsWithin_eq (steps steps' n : Nat) (h : f.size ≤ n + steps)
    (h' : f.size ≤ n + steps') : f.ancestorsWithin steps n = f.ancestorsWithin steps' n := by
  induction steps generalizing steps' n with
  | zero =>
    have hnone : f.parent n = none := f.parent_of_size_le h
    cases steps' with
    | zero => rfl
    | succ steps' => simp only [ancestorsWithin, hnone]
  | succ steps ih =>
    cases hparent : f.parent n with
    | none => cases steps' <;> simp only [ancestorsWithin, hparent]
    | some p =>
      obtain ⟨hlt, hsize⟩ := parent_bounds hparent
      cases steps' with
      | zero => omega
      | succ steps' =>
        have hrest : f.ancestorsWithin steps p = f.ancestorsWithin steps' p :=
          ih steps' p (by omega) (by omega)
        simp only [ancestorsWithin, hparent, hrest]

theorem ancestors_top (h : f.parent n = none) : f.ancestors n = [] := by
  unfold ancestors
  cases f.size <;> simp only [ancestorsWithin, h]

theorem ancestors_step (h : f.parent n = some p) : f.ancestors n = p :: f.ancestors p := by
  obtain ⟨hlt, hsize⟩ := parent_bounds h
  unfold ancestors
  obtain ⟨k, hk⟩ : ∃ k, f.size = k + 1 := ⟨f.size - 1, by omega⟩
  rw [hk, ancestorsWithin, h, ← hk]
  exact congrArg (p :: ·) (f.ancestorsWithin_eq k f.size p (by omega) (by omega))

@[elab_as_elim]
theorem downwards {motive : Nat → Prop} (n : Nat) (top : ∀ n : Nat, f.parent n = none → motive n)
    (step : ∀ n p : Nat, f.parent n = some p → motive p → motive n) : motive n :=
  Lineage.downwards (L := f.lineage) n top step

/-! ### Comparing by ancestry -/

@[simp] theorem lineage_ancestors (f : Forest) (n : NodeId) :
    f.lineage.ancestors n = f.ancestors n := by
  induction n using downwards (f := f) with
  | top n h => rw [ancestors_top h, Lineage.ancestors_top h]
  | step n p h ih => rw [ancestors_step h, Lineage.ancestors_step h, ih]

@[simp] theorem lineage_root (f : Forest) (n : NodeId) : f.lineage.root n = f.root n := by
  rw [Lineage.root, lineage_ancestors, root]

theorem lineage_comparePaths (f : Forest) (above : NodeId) (as bs : List NodeId) :
    f.lineage.comparePaths above as bs = f.comparePaths above as bs := by
  induction as generalizing above bs with
  | nil => cases bs <;> rfl
  | cons a as ih =>
    cases bs with
    | nil => rfl
    | cons b bs =>
      rw [Lineage.comparePaths, comparePaths, ih]
      rfl

@[simp] theorem lineage_compareOrder (f : Forest) (a b : NodeId) :
    f.lineage.compareOrder a b = f.compareOrder a b := by
  have path (n : NodeId) : f.lineage.pathFromRoot n = f.pathFromRoot n := by
    rw [Lineage.pathFromRoot, lineage_ancestors, pathFromRoot]
  rw [Lineage.compareOrder, compareOrder, path, path]
  cases f.pathFromRoot a with
  | nil => rfl
  | cons r as =>
    cases f.pathFromRoot b with
    | nil => rfl
    | cons s bs => simp only [lineage_comparePaths]

/-- The numbers of the branches from the root down to a node. -/
def place (f : Forest) (n : NodeId) : List Nat := f.lineage.place n

theorem eq_of_place (hroot : f.root a = f.root b) (hplace : f.place a = f.place b) : a = b :=
  Lineage.eq_of_place (by rwa [lineage_root, lineage_root]) hplace

theorem compareOrder_eq (a b : NodeId) : f.compareOrder a b =
    if f.root a = f.root b then .ok (compare (f.place a) (f.place b)) else
    .error (.of .unorderable) := by
  rw [← lineage_compareOrder, Lineage.compareOrder_eq, lineage_root, lineage_root]
  rfl

/-! ### The order -/

def Before (f : Forest) (a b : NodeId) : Prop := f.compareOrder a b = .ok .lt

theorem lineage_before : f.lineage.Before a b ↔ f.Before a b := by
  rw [Lineage.Before, lineage_compareOrder, Before]

theorem before_iff : f.Before a b ↔ f.root a = f.root b ∧
    compare (f.place a) (f.place b) = .lt := by
  rw [← lineage_before, Lineage.before_iff, lineage_root, lineage_root]
  rfl

theorem eq_or_before (hroot : f.root a = f.root b)
    (h : (compare (f.place a) (f.place b)).isLE = true) : a = b ∨ f.Before a b :=
  (Lineage.eq_or_before (by rwa [lineage_root, lineage_root]) h).imp_right lineage_before.mp

theorem Before.trans (hab : f.Before a b) (hbc : f.Before b c) : f.Before a c :=
  lineage_before.mp ((lineage_before.mpr hab).trans (lineage_before.mpr hbc))

theorem not_before_self : ¬f.Before a a := by
  intro h
  rw [before_iff, Std.ReflOrd.compare_self] at h
  cases h.2

/-! ### Above and below -/

def Under (f : Forest) (a n : NodeId) : Prop := a = n ∨ a ∈ f.ancestors n

theorem lineage_under : f.lineage.Under a n ↔ f.Under a n := by
  rw [Lineage.Under, lineage_ancestors, Under]

theorem Under.refl (f : Forest) (n : NodeId) : f.Under n n := .inl rfl

theorem Under.trans (hab : f.Under a b) (hbn : f.Under b n) : f.Under a n :=
  lineage_under.mp ((lineage_under.mpr hab).trans (lineage_under.mpr hbn))

theorem under_of_parent (h : f.parent n = some p) : f.Under p n :=
  lineage_under.mp ((Lineage.under_step h).mpr (.inr (.refl f.lineage p)))

theorem parent_before (h : f.parent b = some a) (hn : f.Under b n) : f.Before a n :=
  lineage_before.mp (Lineage.parent_before h (lineage_under.mpr hn))

theorem before_of_mem_ancestors (h : a ∈ f.ancestors n) : f.Before a n :=
  lineage_before.mp (Lineage.before_of_mem_ancestors (by rwa [lineage_ancestors]))

end Forest

/-! ### The laws -/

/-- Document order by ancestry is a strict total order on each tree, for nodes of any kind and for
the nodes of a forest. -/
theorem compareOrder_ordersDocument :
    (∀ (N : Type) [DecidableEq N] (L : Lineage N), L.OrdersDocument L.compareOrder) ∧
      ∀ f : Forest, f.lineage.OrdersDocument f.compareOrder := by
  refine ⟨fun N _ L => L.ordersDocument, fun f => ?_⟩
  have horder : f.lineage.compareOrder = f.compareOrder :=
    funext fun a => funext (f.lineage_compareOrder a)
  exact horder ▸ f.lineage.ordersDocument

/-- An element with an attribute, a namespace node and a text, which a second element lists
again. -/
theorem compareOrder_ordersDocument_listed_again :
    let first : Draft :=
    .node .element none "" [.node .attribute none "a" [] [] []]
      [.node .namespaceNode none "n" [] [] []]
      [.node .text none "t" [] [] []]
    let second : Draft := .node .element none "" [] [] [.node .text none "u" [] [] [], .planted 2]
    let forest : Forest :=
      (((Forest.empty false).plantAll? [first, second]).map Prod.fst).getD (.empty false)
    forest.children 5 = [4, 2] ∧ forest.parent 2 = some 3 ∧ forest.compareOrder 0 2 = .ok .lt ∧
      forest.compareOrder 2 1 = .ok .gt ∧ forest.compareOrder 3 2 = .ok .lt ∧
      forest.compareOrder 4 2 = .error (.of .unorderable) := by
  intro first second forest
  have laws := compareOrder_ordersDocument.2 forest
  have siblings := laws.listed 3 (by decide +kernel)
  rw [show forest.lineage.attributes 3 ++ forest.lineage.namespaces 3 ++
      forest.lineage.children 3 = [0, 1, 2] by
    decide +kernel] at siblings
  obtain ⟨afterAttribute, rest⟩ := List.pairwise_cons.mp siblings
  have hparent : ∀ n ∈ [0, 1, 2], forest.lineage.parent n = some 3 := by decide +kernel
  have textLater := afterAttribute 2 (by decide) (hparent 0 (by decide)) (hparent 2 (by decide)) 0 2
    (.refl _ 0) (.refl _ 2)
  have namespaceBefore := (List.pairwise_cons.mp rest).1 2 (by decide) (hparent 1 (by decide))
    (hparent 2 (by decide)) 1 2
    (.refl _ 1) (.refl _ 2)
  have textAbove : 3 ∈ forest.lineage.ancestors 2 := by
    rw [Forest.lineage_ancestors]
    decide +kernel
  have apart : forest.lineage.root 4 ≠ forest.lineage.root 2 := by
    rw [Forest.lineage_root, Forest.lineage_root]
    decide +kernel
  have swapped : forest.compareOrder 2 1 = .ok .gt := by
    rw [laws.swap 1 2, namespaceBefore]
    rfl
  exact ⟨by decide +kernel, by decide +kernel, textLater, swapped, laws.above 3 2 textAbove,
    (laws.error_iff 4 2 _).mpr ⟨apart, rfl⟩⟩

end TreeQuery
