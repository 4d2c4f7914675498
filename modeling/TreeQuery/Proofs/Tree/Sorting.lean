import TreeQuery.Proofs.Tree.DocumentOrder
/-!
# Sorting the results of paths

What document order does with a sequence of items depends on their kinds and on the trees of the
nodes. Nodes of different trees are found out as long as the sort goes on; if there are more than 20
it may find its comparisons to contradict each other, as those between trees all say that the nodes
are equal, and then the run is aborted: `documentOrder_exact`, `documentOrder_aborts`.
-/

namespace TreeQuery

section Items

variable {f : Forest} {items : List Item}

theorem nodes_isEmpty_iff : (items.filterMap Item.node?).isEmpty = true ↔
    ∀ item ∈ items, item.isNode = false := by
  rw [List.isEmpty_iff, List.filterMap_eq_nil_iff]
  refine forall₂_congr fun item _ => ?_
  cases item <;> simp [Item.node?, Item.isNode]

theorem nodes_length_iff : (items.filterMap Item.node?).length = items.length ↔
    ∀ item ∈ items, item.isNode = true := by
  refine ⟨fun h item hitem => ?_, fun h => ?_⟩
  · rw [eq_map_node h] at hitem
    obtain ⟨n, -, rfl⟩ := List.mem_map.mp hitem
    rfl
  · have hnodes : items = (items.filterMap Item.node?).map .node := eq_nodes fun item hitem => by
      cases item with
      | node n => exact ⟨n, rfl⟩
      | atomic _ | function _ => cases h _ hitem
    simpa using (congrArg List.length hnodes).symm

theorem documentOrder_of_none (h : ∀ item ∈ items, item.isNode = false) :
    documentOrder f items = .ok items :=
  if_pos (nodes_isEmpty_iff.mpr h)

theorem documentOrder_of_some (h : ∃ item ∈ items, item.isNode = true)
    (h' : ∃ item ∈ items, item.isNode = false) :
    documentOrder f items = .error (.of .mixedPath) := by
  have hsome : ¬∀ item ∈ items, item.isNode = false := by simpa using h
  have hother : ¬∀ item ∈ items, item.isNode = true := by simpa using h'
  rw [documentOrder, if_neg (mt nodes_isEmpty_iff.mp hsome), if_pos (mt nodes_length_iff.mp hother)]

theorem documentOrder_of_all (h : ∀ item ∈ items, item.isNode = true) :
    documentOrder f items = (f.sortNodes (items.filterMap Item.node?)).map fun sorted =>
    sorted.map .node := by
  cases items with
  | nil => rfl
  | cons item rest =>
    have hsome : ¬∀ x ∈ item :: rest, x.isNode = false := fun hnone => by
      simpa [h item List.mem_cons_self] using hnone item List.mem_cons_self
    rw [documentOrder, if_neg (mt nodes_isEmpty_iff.mp hsome),
      if_neg (not_not.mpr (nodes_length_iff.mpr h))]

/-- What document order does with nodes: it fails if they are of different trees, and else gives
each node once, strictly increasing. -/
structure OrdersNodes (f : Forest) (items : List Item) : Prop where
  gives : (∀ a b, .node a ∈ items → .node b ∈ items → f.root a = f.root b) →
    ∃ ordered : List NodeId, documentOrder f items = .ok (ordered.map .node) ∧ ordered.Nodup ∧
      (∀ n, n ∈ ordered ↔ .node n ∈ items) ∧ ordered.Pairwise f.Before
  fails : ∀ a b, .node a ∈ items → .node b ∈ items → f.root a ≠ f.root b →
    documentOrder f items = .error (.of .unorderable) ∨
      documentOrder f items = .error .aborted ∧ 20 < items.length

theorem documentOrder_nodes_only (h : ∀ item ∈ items, item.isNode = true) :
    OrdersNodes f items := by
  have hputs := f.sortNodes_puts (items.filterMap Item.node?)
  refine ⟨fun hroot => ?_, fun a b ha hb hroot => ?_⟩
  · obtain ⟨ordered, hordered, hbefore, hmem⟩ := hputs.gives fun a ha b hb => by
      simpa only [Forest.lineage_root] using hroot a b (mem_nodes_iff.mp ha) (mem_nodes_iff.mp hb)
    refine ⟨ordered, by rw [documentOrder_of_all h, hordered]; rfl, ?_,
      fun n => by rw [hmem, mem_nodes_iff], hbefore.imp Forest.lineage_before.mp⟩
    exact hbefore.imp (S := (· ≠ ·)) fun hab heq => Lineage.not_before_self (heq ▸ hab)
  · rw [documentOrder_of_all h]
    rcases hputs.fails a (mem_nodes_iff.mpr ha) b (mem_nodes_iff.mpr hb)
      (by rwa [Forest.lineage_root, Forest.lineage_root]) with herror | ⟨herror, hlen⟩
    · rw [herror]
      exact .inl rfl
    · rw [herror]
      exact .inr ⟨rfl, Nat.lt_of_lt_of_le hlen (List.length_filterMap_le ..)⟩

/-- Only nodes of different trees make document order fail for want of an order. -/
theorem documentOrder_unorderable {e : Error} (h : documentOrder f items = .error (.error e))
    (hcode : e.errorCode.symbol = "FOER0000") :
    (∀ item ∈ items, item.isNode = true) ∧
      ∃ a b, .node a ∈ items ∧ .node b ∈ items ∧ f.root a ≠ f.root b := by
  by_cases hall : ∀ item ∈ items, item.isNode = true
  · refine ⟨hall, ?_⟩
    by_contra hroot
    push Not at hroot
    obtain ⟨ordered, hok, -⟩ := (documentOrder_nodes_only hall).gives hroot
    rw [hok] at h
    cases h
  have hother : ∃ item ∈ items, item.isNode = false := by simpa using hall
  by_cases hnone : ∀ item ∈ items, item.isNode = false
  · rw [documentOrder_of_none hnone] at h
    cases h
  · rw [documentOrder_of_some (by simpa using hnone) hother] at h
    obtain rfl : Error.of .mixedPath = e := Failure.error.inj (Except.error.inj h)
    exact absurd hcode (by decide)

end Items

/-- Document order leaves items alone if there is no node among them, fails if there are nodes and
other items, and else gives each node once, strictly increasing, if all are of one tree. Nodes of
different trees, and only they, make it fail for want of an order, unless there are more than 20:
then the sort may give up. So it is with nodes of any kind. -/
theorem documentOrder_exact (f : Forest) (items : List Item) {N : Type} [DecidableEq N]
    (L : Lineage N) (nodes : List N) :
    ((∀ item ∈ items, item.isNode = false) → documentOrder f items = .ok items) ∧
    ((∃ item ∈ items, item.isNode = true) → (∃ item ∈ items, item.isNode = false) →
      ∃ e, documentOrder f items = .error (.error e) ∧ e.errorCode.symbol = "XPTY0004") ∧
    ((∀ item ∈ items, item.isNode = true) →
      (∀ a b, .node a ∈ items → .node b ∈ items → f.root a = f.root b) →
      ∃ ordered : List NodeId, documentOrder f items = .ok (ordered.map .node) ∧ ordered.Nodup ∧
        (∀ n, n ∈ ordered ↔ .node n ∈ items) ∧ ordered.Pairwise f.Before) ∧
    ((∀ item ∈ items, item.isNode = true) →
      (∃ a b, .node a ∈ items ∧ .node b ∈ items ∧ f.root a ≠ f.root b) →
      (∃ e, documentOrder f items = .error (.error e) ∧ e.errorCode.symbol = "FOER0000") ∨
        documentOrder f items = .error .aborted ∧ 20 < items.length) ∧
    ((∃ e, documentOrder f items = .error (.error e) ∧ e.errorCode.symbol = "FOER0000") →
      (∀ item ∈ items, item.isNode = true) ∧
        ∃ a b, .node a ∈ items ∧ .node b ∈ items ∧ f.root a ≠ f.root b) ∧
    L.PutsInOrder nodes (sortDistinct L.compareOrder nodes) := by
  refine ⟨documentOrder_of_none, fun hsome hother => ?_, fun h => ?_, fun h => ?_, ?_,
    L.sortDistinct_puts nodes⟩
  · exact ⟨.of .mixedPath, documentOrder_of_some hsome hother, rfl⟩
  · exact (documentOrder_nodes_only h).gives
  · rintro ⟨a, b, ha, hb, hroot⟩
    exact ((documentOrder_nodes_only h).fails a b ha hb hroot).imp_left fun herror =>
      ⟨.of .unorderable, herror, rfl⟩
  · rintro ⟨e, herror, hcode⟩
    exact documentOrder_unorderable herror hcode

/-- Two children of an element, one of which is there twice, are put into order; for a child and a
node of another tree there is no order. -/
theorem documentOrder_exact_children :
    let element (children : List NodeId) : Node := { kind := .element, name := none, children }
    let forest := (((((Forest.empty false).push? (element [])).bind (·.push? (element []))).bind
      (·.push? (element [0, 1]))).bind (·.push? (element []))).getD (.empty false)
    (∃ ordered : List NodeId, documentOrder forest ([1, 0, 1].map .node) = .ok (ordered.map .node) ∧
      ordered.Nodup ∧ (∀ n, n ∈ ordered ↔ .node n ∈ [1, 0, 1].map Item.node) ∧
      ordered.Pairwise forest.Before) ∧
    ∃ e, documentOrder forest ([1, 3, 0].map .node) = .error (.error e) ∧
      e.errorCode.symbol = "FOER0000" := by
  intro element forest
  have nodes (ns : List NodeId) : ∀ item ∈ ns.map Item.node, item.isNode = true := by
    intro item hitem
    obtain ⟨n, -, rfl⟩ := List.mem_map.mp hitem
    rfl
  obtain ⟨-, -, gives, -, -⟩ := documentOrder_exact forest ([1, 0, 1].map .node) forest.lineage []
  obtain ⟨-, -, -, fails, -⟩ := documentOrder_exact forest ([1, 3, 0].map .node) forest.lineage []
  refine ⟨gives (nodes _) fun a b ha hb => ?_, ?_⟩
  · have hroot : ∀ n ∈ [1, 0, 1], forest.root n = 2 := by decide +kernel
    rw [hroot a (by simpa using ha), hroot b (by simpa using hb)]
  · have hroots : forest.root 1 ≠ forest.root 3 := by decide +kernel
    refine (fails (nodes _) ⟨1, 3, by simp, by simp, hroots⟩).resolve_right ?_
    rintro ⟨-, hlen⟩
    exact absurd hlen (by decide)

/-- 21 nodes of two trees that the sort gives up on. Both halves are in order as they stand. From
the front, the first four nodes come first, as they are equal to all others, and of the rest the two
of the second half come before the others; from the back, the first half's six come last. -/
theorem documentOrder_aborts :
    let element (children : List NodeId) : Node := { kind := .element, name := none, children }
    let forest := (((((Forest.empty false).push? (element [])).bind (·.push? (element [0])))).bind
      (·.push? (element []))).getD (.empty false)
    let items : List Item := ([2, 2, 2, 2, 0, 0, 0, 0, 0, 0] ++
      [1, 1, 2, 2, 2, 2, 2, 2, 1, 1, 1]).map .node
    (∀ item ∈ items, item.isNode = true) ∧ .node 0 ∈ items ∧ .node 2 ∈ items ∧
      forest.root 0 ≠ forest.root 2 ∧ documentOrder forest items = .error .aborted := by
  intro element forest items
  have hnodes : ∀ item ∈ items, item.isNode = true := by
    rintro item hitem
    obtain ⟨n, -, rfl⟩ := List.mem_map.mp hitem
    rfl
  have hsort : forest.sortNodes (items.filterMap Item.node?) = .error .aborted := by decide +kernel
  refine ⟨hnodes, by simp [items], by simp [items], by decide +kernel, ?_⟩
  rw [documentOrder_of_all hnodes, hsort]
  rfl

end TreeQuery
