import TreeQuery.Proofs.Tree.Axis
/-!
# Axes that undo each other

Among roots and nodes that are listed as children the child, descendant and descendant-or-self axes
lead down where parent, ancestor and ancestor-or-self lead up, and a sibling follows another one
just if that one precedes it: `Forest.WellFormed.mem_axisNodes_iff`. Attributes and namespace nodes
are outside of this. They are on no child or descendant axis, though they have ancestors, and as
nothing is below them no walk up from a child passes through one (`Forest.IsChildOrRoot.parent`).
-/

namespace TreeQuery
namespace Forest

variable {f : Forest} {c m n p : Nat}

def IsChildOrRoot (f : Forest) (n : NodeId) : Prop := ∀ p, f.parent n = some p → n ∈ f.children p

theorem IsChildOrRoot.parent (hc : c ∈ f.children p) : f.IsChildOrRoot p := by
  intro q hq
  have hlisted := mem_listed_of_parent hq
  rw [Node.listed, List.mem_append] at hlisted
  rcases hlisted with howned | hchild
  · have hleaf : c ∈ (f.node p).listed := List.mem_append_right _ hc
    rw [listed_of_owned howned] at hleaf
    cases hleaf
  · exact hchild

/-! ### Down and up -/

theorem children_zero (f : Forest) : f.children 0 = [] :=
  List.eq_nil_iff_forall_not_mem.mpr fun c hc => absurd (lt_of_mem_children hc) c.not_lt_zero

theorem subtree_eq (depth depth' n : Nat) (h : n ≤ depth) (h' : n ≤ depth') :
    f.subtree depth n = f.subtree depth' n := by
  induction depth generalizing depth' n with
  | zero =>
    obtain rfl : n = 0 := Nat.le_zero.mp h
    cases depth' <;> simp [subtree, children_zero]
  | succ depth ih =>
    cases depth' with
    | zero =>
      obtain rfl : n = 0 := Nat.le_zero.mp h'
      simp [subtree, children_zero]
    | succ depth' =>
      rw [subtree, subtree, List.flatMap_congr fun c hc => ?_]
      have hlt := lt_of_mem_children hc
      exact ih depth' c (Nat.le_of_lt_succ (Nat.lt_of_lt_of_le hlt h))
        (Nat.le_of_lt_succ (Nat.lt_of_lt_of_le hlt h'))

theorem mem_descendants_iff : m ∈ f.descendants n ↔ ∃ c ∈ f.children n, m = c ∨
    m ∈ f.descendants c := by
  rw [descendants, List.mem_flatMap]
  refine exists_congr fun c => and_congr_right fun hc => ?_
  rw [f.subtree_eq n (c + 1) c (Nat.le_of_lt (lt_of_mem_children hc)) (Nat.le_succ c), subtree,
    List.mem_cons, descendants]

theorem mem_descendants_of_child (hc : c ∈ f.children m) (hm : m = n ∨ m ∈ f.descendants n) :
    c ∈ f.descendants n := by
  induction n using Nat.strongRecOn with
  | ind n ih =>
    rw [mem_descendants_iff]
    rcases hm with rfl | hm
    · exact ⟨c, hc, .inl rfl⟩
    · obtain ⟨b, hb, hm⟩ := mem_descendants_iff.mp hm
      exact ⟨b, hb, .inr (ih b (lt_of_mem_children hb) hm)⟩

theorem mem_descendants_of_mem_ancestors (h : n ∈ f.ancestors m) (hm : f.IsChildOrRoot m) :
    m ∈ f.descendants n := by
  induction m using downwards (f := f) with
  | top m htop =>
    rw [ancestors_top htop] at h
    cases h
  | step m p hp ih =>
    rw [ancestors_step hp, List.mem_cons] at h
    have hchild := hm p hp
    refine mem_descendants_of_child hchild (h.imp Eq.symm fun h => ?_)
    exact ih h (.parent hchild)

theorem mem_ancestors_of_under (hc : f.parent c = some n) (hm : f.Under c m) :
    n ∈ f.ancestors m := by
  rcases (under_of_parent hc).trans hm with rfl | h
  · exact absurd (parent_before hc hm) not_before_self
  · exact h

/-! ### Siblings -/

theorem mem_drop_idxOf_iff : (l : List NodeId) → {m n : NodeId} →
    ((∃ i, l.idxOf? n = some i ∧ m ∈ l.drop (i + 1)) ↔ [n, m].Sublist l)
  | [], m, n => by simp
  | a :: l, m, n => by
    have ih := mem_drop_idxOf_iff l (m := m) (n := n)
    by_cases ha : a = n
    · subst ha
      simp [List.idxOf?_cons]
    · simp [List.idxOf?_cons, ha, ← ih, List.sublist_cons_iff, Ne.symm ha]

theorem mem_take_idxOf_iff : (l : List NodeId) → l.Nodup → {m n : NodeId} →
    ((∃ i, l.idxOf? m = some i ∧ n ∈ l.take i) ↔ [n, m].Sublist l)
  | [], _, m, n => by simp
  | a :: l, h, m, n => by
    obtain ⟨ha, hl⟩ := List.nodup_cons.mp h
    have ih := mem_take_idxOf_iff l hl (m := m) (n := n)
    by_cases hm : a = m
    · subst hm
      have hnot : ¬[n, a].Sublist l := fun hsub => ha (hsub.subset (by simp))
      simp [List.idxOf?_cons, List.sublist_cons_iff, hnot, ha]
    · have hfound : (∃ i, l.idxOf? m = some i) ↔ m ∈ l := by
        rw [← Option.isSome_iff_exists, List.isSome_idxOf?]
      have hstep : (∃ i, (a :: l).idxOf? m = some i ∧ n ∈ (a :: l).take i) ↔
          ∃ i, l.idxOf? m = some i ∧ (n = a ∨ n ∈ l.take i) := by
        simp [List.idxOf?_cons, hm]
      rw [hstep, List.sublist_cons_iff, ← ih]
      simp only [and_or_left, exists_or, exists_and_right, hfound, List.cons.injEq]
      rw [or_comm]
      simp [and_comm]

/-! ### Both ways -/

namespace WellFormed

theorem mem_children_iff (hf : f.WellFormed) (hm : f.IsChildOrRoot m) :
    m ∈ f.children n ↔ f.parent m = some n :=
  ⟨hf.parent_of_mem_children, hm n⟩

theorem mem_descendants_iff_ancestors (hf : f.WellFormed) (hm : f.IsChildOrRoot m) :
    m ∈ f.descendants n ↔ n ∈ f.ancestors m := by
  refine ⟨fun h => ?_, fun h => mem_descendants_of_mem_ancestors h hm⟩
  obtain ⟨c, hc, hbelow⟩ := List.mem_flatMap.mp h
  exact mem_ancestors_of_under (hf.parent_of_mem_children hc) ((hf.subtree n c).2 m hbelow)

theorem mem_following_iff (f : Forest) (m n : NodeId) :
    m ∈ (f.siblings n).2 ↔ ∃ p, f.parent n = some p ∧ [n, m].Sublist (f.children p) := by
  simp only [← mem_drop_idxOf_iff, Forest.siblings]
  cases f.parent n with
  | none => simp
  | some p => cases hi : (f.children p).idxOf? n <;> simp [hi]

theorem mem_preceding_iff (hf : f.WellFormed) (m n : NodeId) :
    n ∈ (f.siblings m).1 ↔ ∃ p, f.parent m = some p ∧ [n, m].Sublist (f.children p) := by
  have hnodup (p : NodeId) : (f.children p).Nodup :=
    (hf.nodup p).sublist (List.sublist_append_right _ _)
  have htake (p : NodeId) := mem_take_idxOf_iff (f.children p) (hnodup p) (m := m) (n := n)
  simp only [← htake, Forest.siblings]
  cases f.parent m with
  | none => simp
  | some p => cases hi : (f.children p).idxOf? m <;> simp [hi]

theorem mem_siblings_iff (hf : f.WellFormed) (m n : NodeId) :
    m ∈ (f.siblings n).2 ↔ n ∈ (f.siblings m).1 := by
  rw [mem_following_iff, hf.mem_preceding_iff]
  refine exists_congr fun p => and_congr_left fun h => ?_
  have hparent (a : NodeId) (ha : a ∈ [n, m]) : f.parent a = some p :=
    hf.parent_of_mem_children (h.subset ha)
  rw [hparent m (by simp), hparent n (by simp)]

/-- Of two nodes that are children or roots one is on a downward axis of the other just if that one
is on the upward axis of the same distance, and one follows the other just if that one precedes
it. -/
theorem mem_axisNodes_iff (hf : f.WellFormed) (hm : f.IsChildOrRoot m) :
    (m ∈ f.axisNodes n .child ↔ n ∈ f.axisNodes m .parent) ∧
      (m ∈ f.axisNodes n .descendant ↔ n ∈ f.axisNodes m .ancestor) ∧
      (m ∈ f.axisNodes n .descendantOrSelf ↔ n ∈ f.axisNodes m .ancestorOrSelf) ∧
      (m ∈ f.axisNodes n .followingSibling ↔ n ∈ f.axisNodes m .precedingSibling) := by
  have hbelow := hf.mem_descendants_iff_ancestors hm (n := n)
  refine ⟨?_, hbelow, ?_, ?_⟩
  · rw [axisNodes, axisNodes, Option.mem_toList, hf.mem_children_iff hm]
  · rw [axisNodes, axisNodes, List.mem_cons, List.mem_cons, hbelow, eq_comm]
  · rw [axisNodes, axisNodes, List.mem_reverse, hf.mem_siblings_iff]

end WellFormed
end Forest
end TreeQuery
