import TreeQuery.Proofs.Tree.Order
import TreeQuery.Tree.Axis
/-!
# Axes and document order

In a forest where every node is listed once, by its parent, an axis goes along document order or, if
it is a reverse axis, against it: `Forest.axisNodes_pairwise`. A subtree begins with its top, and
the subtrees of the children follow one another (`Forest.WellFormed.subtree`).
-/

namespace TreeQuery
namespace Forest

variable {f : Forest} {n p : Nat}

/-- Every node is listed at most once, and only its parent lists it. -/
structure WellFormed (f : Forest) : Prop where
  nodup : ∀ m, (f.node m).listed.Nodup
  parent_of_listed : ∀ m, ∀ n ∈ (f.node m).listed, f.parent n = some m

namespace WellFormed

theorem iff_of_lt : f.WellFormed ↔
    ∀ m < f.size, (f.node m).listed.Nodup ∧ ∀ n ∈ (f.node m).listed, f.parent n = some m := by
  refine ⟨fun hf m _ => ⟨hf.nodup m, hf.parent_of_listed m⟩, fun h => ?_⟩
  have hall (m : NodeId) : (f.node m).listed.Nodup ∧
      ∀ n ∈ (f.node m).listed, f.parent n = some m := by
    by_cases hm : m < f.size
    · exact h m hm
    · have hnone : f.nodes[m]? = none := Array.getElem?_eq_none (Nat.le_of_not_lt hm)
      rw [node, hnone]
      exact ⟨.nil, fun n hn => by cases hn⟩
  exact ⟨fun m => (hall m).1, fun m => (hall m).2⟩

instance (f : Forest) : Decidable f.WellFormed := decidable_of_iff' _ iff_of_lt

theorem listed_pairwise (hf : f.WellFormed) (p : NodeId) :
    (f.node p).listed.Pairwise fun a b => ∀ m, f.Under a m → ∀ m', f.Under b m' → f.Before m m' :=
  (Lineage.listed_pairwise (L := f.lineage) (hf.nodup p)).imp_of_mem fun ha hb h m hm m' hm' =>
    lineage_before.mp
      (h (hf.parent_of_listed p _ ha) (hf.parent_of_listed p _ hb) m m' (lineage_under.mpr hm)
      (lineage_under.mpr hm'))

theorem children_pairwise (hf : f.WellFormed) (p : NodeId) :
    (f.children p).Pairwise fun a b => ∀ m, f.Under a m → ∀ m', f.Under b m' → f.Before m m' :=
  (hf.listed_pairwise p).sublist (List.sublist_append_right _ _)

theorem children_before (hf : f.WellFormed) (p : NodeId) : (f.children p).Pairwise f.Before :=
  (hf.children_pairwise p).imp fun {a b} h => h a (.refl f a) b (.refl f b)

theorem attributes_before (hf : f.WellFormed) (p : NodeId) :
    (f.attributes p).Pairwise f.Before := by
  have hsublist : (f.attributes p).Sublist (f.node p).listed := by
    rw [Node.listed, List.append_assoc]
    exact List.sublist_append_left _ _
  exact ((hf.listed_pairwise p).sublist hsublist).imp fun {a b} h => h a (.refl f a) b (.refl f b)

theorem parent_of_mem_children (hf : f.WellFormed) (h : n ∈ f.children p) : f.parent n = some p :=
  hf.parent_of_listed p n (List.mem_append_right _ h)

theorem subtree (hf : f.WellFormed) (depth n : Nat) :
    (f.subtree depth n).Pairwise f.Before ∧ ∀ m ∈ f.subtree depth n, f.Under n m := by
  induction depth generalizing n with
  | zero => exact ⟨List.pairwise_singleton _ _, fun m hm => List.mem_singleton.mp hm ▸ .refl f n⟩
  | succ depth ih =>
    have hbelow : ∀ m ∈ (f.children n).flatMap (f.subtree depth), ∃ c, f.parent c = some n ∧
        f.Under c m := by
      intro m hm
      obtain ⟨c, hc, hm⟩ := List.mem_flatMap.mp hm
      exact ⟨c, hf.parent_of_mem_children hc, (ih c).2 m hm⟩
    have hrest : ((f.children n).flatMap (f.subtree depth)).Pairwise f.Before := by
      rw [List.pairwise_flatMap]
      refine ⟨fun c _ => (ih c).1, (hf.children_pairwise n).imp fun {a b} h m hm m' hm' => ?_⟩
      exact h m ((ih a).2 m hm) m' ((ih b).2 m' hm')
    refine ⟨List.pairwise_cons.mpr ⟨fun m hm => ?_, hrest⟩, fun m hm => ?_⟩
    · obtain ⟨c, hc, hm⟩ := hbelow m hm
      exact parent_before hc hm
    · rcases List.mem_cons.mp hm with rfl | hm
      · exact .refl f m
      · obtain ⟨c, hc, hm⟩ := hbelow m hm
        exact (under_of_parent hc).trans hm

theorem self_descendants (hf : f.WellFormed) (n : NodeId) :
    (n :: f.descendants n).Pairwise f.Before :=
  (hf.subtree (n + 1) n).1

theorem siblings (hf : f.WellFormed) (n : NodeId) :
    (f.siblings n).1.Pairwise f.Before ∧ (f.siblings n).2.Pairwise f.Before := by
  unfold Forest.siblings
  split
  · exact ⟨.nil, .nil⟩
  next p _ =>
  dsimp only
  split
  · exact ⟨(hf.children_before p).sublist (List.take_sublist _ _),
      (hf.children_before p).sublist (List.drop_sublist _ _)⟩
  · exact ⟨.nil, .nil⟩

end WellFormed

theorem self_ancestors (n : NodeId) : (n :: f.ancestors n).Pairwise fun a b => f.Before b a := by
  induction n using downwards (f := f) with
  | top n h =>
    rw [ancestors_top h]
    exact List.pairwise_singleton _ _
  | step n p h ih =>
    refine List.pairwise_cons.mpr ⟨fun a ha => before_of_mem_ancestors ha, ?_⟩
    rwa [ancestors_step h]

/-- A forward axis goes along document order, a reverse axis against it. -/
theorem axisNodes_pairwise (hf : f.WellFormed) (n : NodeId) (axis : Axis) :
    (f.axisNodes n axis).Pairwise fun a b => if axis.isReverse then f.Before b a else
    f.Before a b := by
  match axis with
  | .child => exact hf.children_before n
  | .attribute => exact hf.attributes_before n
  | .self => exact List.pairwise_singleton _ _
  | .descendant => exact (List.pairwise_cons.mp (hf.self_descendants n)).2
  | .descendantOrSelf => exact hf.self_descendants n
  | .parent =>
    show (f.parent n).toList.Pairwise _
    cases f.parent n with
    | none => exact .nil
    | some p => exact List.pairwise_singleton _ p
  | .ancestor => exact (List.pairwise_cons.mp (self_ancestors n)).2
  | .ancestorOrSelf => exact self_ancestors n
  | .followingSibling => exact (hf.siblings n).2
  | .precedingSibling => exact List.pairwise_reverse.mpr (hf.siblings n).1

end Forest
end TreeQuery
