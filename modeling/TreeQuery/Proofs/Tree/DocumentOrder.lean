import TreeQuery.Eval.Operation
import TreeQuery.Proofs.Tree.Sorted
/-!
# What document order leaves of a sequence

Putting nodes into document order leaves out nothing but duplicates: the nodes are those that there
were (`mem_documentOrder`), no more of them, some are left if there were some (`documentOrder_ok`),
and they are strictly increasing (`documentOrder_pairwise`).
-/

namespace TreeQuery

theorem eq_map_node : {items : List Item} → (items.filterMap Item.node?).length = items.length →
    items = (items.filterMap Item.node?).map .node
  | [], _ => rfl
  | .node n :: items, h => by
    have h : (items.filterMap Item.node?).length = items.length := by simpa [Item.node?] using h
    simpa [Item.node?] using eq_map_node h
  | .atomic _ :: items, h | .function _ :: items, h => by
    have hle := List.length_filterMap_le Item.node? items
    simp only [List.filterMap_cons, Item.node?, List.length_cons] at h
    omega

theorem mem_nodes_iff {items : List Item} {n : NodeId} :
    n ∈ items.filterMap Item.node? ↔ .node n ∈ items := by
  rw [List.mem_filterMap]
  constructor
  · rintro ⟨x, hx, hn⟩
    cases x with
    | node m => exact Option.some.inj hn ▸ hx
    | _ => cases hn
  · exact fun hn => ⟨_, hn, rfl⟩

theorem eq_nodes : {items : List Item} → (∀ x ∈ items, ∃ n, x = .node n) →
    items = (items.filterMap Item.node?).map .node
  | [], _ => rfl
  | x :: xs, h => by
    rw [List.forall_mem_cons] at h
    obtain ⟨⟨n, rfl⟩, h⟩ := h
    simpa [Item.node?] using eq_nodes h

theorem documentOrder_nodes {forest : Forest} {items items' : List Item}
    (h : documentOrder forest items = .ok items') :
    items' = items ∧ items.filterMap Item.node? = [] ∨
      ∃ nodes sorted, items = nodes.map .node ∧ items' = sorted.map .node ∧
      forest.sortNodes nodes = .ok sorted := by
  unfold documentOrder at h
  dsimp only at h
  split at h
  · next hnone => exact .inl ⟨(Except.ok.inj h).symm, List.isEmpty_iff.mp hnone⟩
  split at h
  · cases h
  next hlength =>
  cases hsort : forest.sortNodes (items.filterMap Item.node?) with
  | error f => simp [hsort, Except.map] at h
  | ok sorted =>
    simp only [hsort, Except.map, Except.ok.injEq] at h
    exact .inr ⟨_, sorted, eq_map_node (Decidable.not_not.mp hlength), h.symm, hsort⟩

theorem mem_documentOrder {forest : Forest} {items items' : List Item}
    (h : documentOrder forest items = .ok items') {item : Item} : item ∈ items' ↔ item ∈ items := by
  obtain ⟨rfl, -⟩ | ⟨nodes, sorted, rfl, rfl, hsort⟩ := documentOrder_nodes h
  · rfl
  · simp only [List.mem_map, Forest.mem_sortNodes hsort]

/-- Document order leaves out duplicates and nothing else. -/
theorem documentOrder_ok {forest : Forest} {items items' : List Item}
    (h : documentOrder forest items = .ok items') :
    items'.length ≤ items.length ∧ (items ≠ [] → items' ≠ []) := by
  obtain ⟨rfl, -⟩ | ⟨nodes, sorted, rfl, rfl, hsort⟩ := documentOrder_nodes h
  · exact ⟨Nat.le_refl _, id⟩
  · simpa using Forest.sortNodes_ok hsort

theorem documentOrder_pairwise {forest : Forest} {items ordered : List Item}
    (h : documentOrder forest items = .ok ordered) :
    (ordered.filterMap Item.node?).Pairwise forest.Before := by
  obtain ⟨rfl, hnone⟩ | ⟨source, sorted, -, rfl, hsort⟩ := documentOrder_nodes h
  · rw [hnone]
    exact .nil
  · have hsame : (sorted.map Item.node).filterMap Item.node? = sorted := by
      simp [List.filterMap_map, Function.comp_def, Item.node?]
    rw [hsame]
    exact Forest.sortNodes_pairwise hsort

end TreeQuery
