import TreeQuery.Eval.Expression
import TreeQuery.Proofs.Filter.Lengths
import TreeQuery.Proofs.Typing.Constants
import TreeQuery.Proofs.Typing.Environment
import TreeQuery.Proofs.Typing.Lengths
import TreeQuery.Proofs.Tree.DocumentOrder
/-!
# Cursors of static types

What becomes of static types as cursors are checked, filtered, followed and put into document order.
A cursor `Supplies` what is known of its items, and its length is `Counted`; the two are what is
kept along a chain, where each operand has its own items in focus (`Cursor.follow_counts`).
-/

namespace TreeQuery

variable {forest : Forest} {τ : StaticType} {K : Knowledge}

/-! ### Items and lengths -/

namespace Cursor

def Supplies (forest : Forest) (K : Knowledge) (c : Cursor) : Prop :=
  ∀ scoring, ∀ item ∈ delivered (c.deliveries scoring), K.Holds forest item ∧ item.Good

/-- The number of items keeps to an indicator and a size. -/
def Counted (o : Occurrence) (size : Option Nat) (c : Cursor) : Prop :=
  ∀ scoring, Counts o size (delivered (c.deliveries scoring)).length (Clean (c.deliveries scoring))

variable {c : Cursor}

theorem OfType.counted (h : c.OfType forest τ) : c.Counted τ.occurrence τ.size :=
  fun scoring => (h scoring).counts

theorem Supplies.ofType (h : c.Supplies forest K) (ht : K.Implies τ.item)
    (hcount : c.Counted τ.occurrence τ.size) : c.OfType forest τ := fun scoring =>
  ⟨fun item hitem => (h scoring item hitem).1.implies ht,
    fun item hitem => (h scoring item hitem).2, hcount scoring⟩

theorem supplies_ofList {items : List Item} (h : ∀ item ∈ items, K.Holds forest item ∧ item.Good) :
    (ofList items).Supplies forest K := fun scoring item hitem => h item (by simpa using hitem)

theorem counted_ofList {items : List Item} {o : Occurrence} {size : Option Nat}
    (h : Counts o size items.length True) : (ofList items).Counted o size := fun scoring => by
  rw [delivered_ofList]
  exact h.imp fun _ => trivial

theorem Supplies.drain (h : c.Supplies forest K) {scoring : Bool} {items : List Item}
    (hitems : (c.drain scoring).Gives items) : ∀ item ∈ items, K.Holds forest item ∧ item.Good := by
  obtain ⟨rfl, -, -⟩ := drain_delivered hitems
  exact h scoring

theorem Counted.drain {o : Occurrence} {size : Option Nat} (h : c.Counted o size) {scoring : Bool}
    {items : List Item} (hitems : (c.drain scoring).Gives items) :
    Counts o size items.length True := by
  obtain ⟨rfl, hclean, -⟩ := drain_delivered hitems
  exact (h scoring).imp fun _ => hclean

theorem Counted.anySize {o : Occurrence} {size : Option Nat} (h : c.Counted o size) :
    c.Counted o none :=
  fun scoring => (h scoring).anySize

theorem counted_single (item : Item) : (single item).Counted .one none :=
  counted_ofList ⟨fun _ h => Nat.le_of_eq (Option.some.inj h),
    by simp, fun _ => Nat.le_refl 1, by simp⟩

end Cursor

theorem Expr.Annotated.supplies {Γ : List Variable} {e : Expr} {c : Cursor} (he : e.Annotated Γ K)
    (h : ∀ τ, e.Infers K τ → c.OfType forest τ) : c.Supplies forest (e.Offers K) := by
  intro scoring item hitem
  refine ⟨fun t ht => ?_, (h e.type he.infers scoring).good item hitem⟩
  obtain ⟨σ, hσ, rfl⟩ := ht
  exact (h σ hσ scoring).item item hitem

/-! ### Chains -/

/-- What a chain delivers is put together from cursors that are opened for items, one for every item
if nothing fails. -/
theorem Link.deliveries_blocks (link : Link) (scoring : Bool) : (ds : List Delivery) → (pos : Nat) →
    ∃ blocks : List Cursor,
      delivered (link.deliveries scoring pos ds) =
      (blocks.map fun d => delivered (d.deliveries scoring)).flatten ∧
      (∀ d ∈ blocks, ∃ pos, ∃ item ∈ delivered ds, (link.start scoring pos item).Gives d) ∧
      blocks.length ≤ (delivered ds).length ∧
      (Clean (link.deliveries scoring pos ds) →
        blocks.length = (delivered ds).length ∧ ∀ d ∈ blocks, Clean (d.deliveries scoring))
  | [], _ => ⟨[], rfl, by simp, Nat.le_refl 0, fun _ => ⟨rfl, by simp⟩⟩
  | (.error e, score) :: ds, pos => by
    obtain ⟨blocks, hout, hfrom, hlength, -⟩ := link.deliveries_blocks scoring ds pos
    exact ⟨blocks, hout, hfrom, hlength, fun h => absurd h clean_error⟩
  | (.ok item, score) :: ds, pos => by
    -- the item itself is left out if it is not admitted, or if no cursor can be opened for it
    have skip {e : Failure} (pos : Nat) : ∃ blocks : List Cursor,
        delivered ((.error e, none) :: link.deliveries scoring pos ds) =
          (blocks.map fun d => delivered (d.deliveries scoring)).flatten ∧
        (∀ d ∈ blocks, ∃ pos, ∃ item' ∈ delivered ((.ok item, score) :: ds),
          (link.start scoring pos item').Gives d) ∧
        blocks.length ≤ (delivered ((.ok item, score) :: ds)).length ∧
        (Clean ((.error e, none) :: link.deliveries scoring pos ds) →
          blocks.length = (delivered ((.ok item, score) :: ds)).length ∧
            ∀ d ∈ blocks, Clean (d.deliveries scoring)) := by
      obtain ⟨blocks, hout, hfrom, hlength, -⟩ := link.deliveries_blocks scoring ds pos
      refine ⟨blocks, hout, fun d hd => ?_, Nat.le_succ_of_le hlength,
        fun h => absurd h clean_error⟩
      obtain ⟨pos, item', hitem', hstart⟩ := hfrom d hd
      exact ⟨pos, item', List.mem_cons_of_mem _ hitem', hstart⟩
    rw [Link.deliveries]
    split
    · exact skip pos
    · unfold Link.block
      split
      · exact skip (pos + 1)
      · next d hd =>
        obtain ⟨blocks, hout, hfrom, hlength, hclean⟩ := link.deliveries_blocks scoring ds (pos + 1)
        refine ⟨d :: blocks, ?_, ?_, Nat.succ_le_succ hlength, ?_⟩
        · simp only [delivered_append, hout, List.map_cons, List.flatten_cons]
        · simp only [List.forall_mem_cons]
          refine ⟨⟨pos + 1, item, List.mem_cons_self, hd⟩, fun d hd => ?_⟩
          obtain ⟨pos, item', hitem', hstart⟩ := hfrom d hd
          exact ⟨pos, item', List.mem_cons_of_mem _ hitem', hstart⟩
        · intro h
          obtain ⟨hblock, hrest⟩ := (clean_append _ _).mp h
          obtain ⟨hlength, hclean⟩ := hclean hrest
          exact ⟨congrArg (· + 1) hlength, List.forall_mem_cons.mpr ⟨hblock, hclean⟩⟩

namespace Cursor

variable {c : Cursor} {L : Knowledge}

theorem chain_supplies {link : Link} {pos : Nat}
    (hlink : ∀ scoring, ∀ item ∈ delivered (c.deliveries scoring),
      ∀ pos d, (link.start scoring pos item).Gives d → d.Supplies forest L) :
    (c.chain link pos).Supplies forest L := by
  intro scoring item hitem
  rw [deliveries_chain] at hitem
  obtain ⟨blocks, hout, hfrom, -, -⟩ := link.deliveries_blocks scoring (c.deliveries scoring) pos
  rw [hout, List.mem_flatten] at hitem
  obtain ⟨items, hitems, hitem⟩ := hitem
  obtain ⟨d, hd, rfl⟩ := List.mem_map.mp hitems
  obtain ⟨pos, source, hsource, hstart⟩ := hfrom d hd
  exact hlink scoring source hsource pos d hstart scoring item hitem

theorem chain_counted {link : Link} {pos : Nat} {o o' : Occurrence} {size size' : Option Nat}
    (hc : c.Counted o size) (hlink : ∀ scoring, ∀ item ∈ delivered (c.deliveries scoring), ∀ pos d,
      (link.start scoring pos item).Gives d → d.Counted o' size') :
    (c.chain link pos).Counted (o.multiply o') (productOf size size') := by
  intro scoring
  rw [deliveries_chain]
  obtain ⟨blocks, hout, hfrom, hlength, hclean⟩ :=
    link.deliveries_blocks scoring (c.deliveries scoring) pos
  have hsum : (delivered (link.deliveries scoring pos (c.deliveries scoring))).length =
      (blocks.map fun d => (delivered (d.deliveries scoring)).length).sum := by
    rw [hout, List.length_flatten, List.map_map]
    rfl
  rw [hsum]
  refine ((hc scoring).imp (Link.clean_deliveries _ pos)).multiply ?_ (fun h => ?_) fun n hn => ?_
  · rwa [List.length_map]
  · rw [List.length_map]
    exact (hclean h).1
  · obtain ⟨d, hd, rfl⟩ := List.mem_map.mp hn
    obtain ⟨pos, source, hsource, hstart⟩ := hfrom d hd
    exact (hlink scoring source hsource pos d hstart scoring).imp fun h => (hclean h).2 d hd

/-- An operand is followed by a chain, over the cursor itself or over its items in memory. -/
theorem follow_gives {env : Env} {operand : Expr} {nodesOnly : Bool} {iterate : Env → Run Cursor}
    {c' : Cursor} (h : (c.follow env operand nodesOnly iterate).Gives c') :
    ∃ (d : Cursor) (link : Link), c' = d.chain link 0 ∧
      (∀ scoring pos item, ∃ size, link.start scoring pos item = iterate
        (env.focusOn size scoring pos item)) ∧
      (∀ K, c.Supplies env.forest K → d.Supplies env.forest K) ∧ ∀ o size, c.Counted o size →
      d.Counted o size := by
  simp only [follow, Logged.gives_ite, Logged.gives_bind, Logged.gives_pure] at h
  obtain ⟨-, items, hitems, rfl⟩ | ⟨-, rfl⟩ := h
  · exact ⟨_, _, rfl, fun _ _ _ => ⟨_, rfl⟩, fun K hc => supplies_ofList (hc.drain hitems),
      fun o size hc => counted_ofList (hc.drain hitems)⟩
  · exact ⟨_, _, rfl, fun _ _ _ => ⟨_, rfl⟩, fun _ => id, fun _ _ => id⟩

section Follow

variable {env : Env} {operand : Expr} {nodesOnly : Bool} {iterate : Env → Run Cursor} {c' : Cursor}
  (hc : c.Supplies env.forest K) (h : (c.follow env operand nodesOnly iterate).Gives c')

include hc h

theorem follow_supplies (hoperand : ∀ size scoring pos item, K.Holds env.forest item ∧ item.Good →
      ∀ d, (iterate (env.focusOn size scoring pos item)).Gives d → d.Supplies env.forest L) :
    c'.Supplies env.forest L := by
  obtain ⟨d, link, rfl, hstart, hd, -⟩ := follow_gives h
  refine chain_supplies fun scoring item hitem pos d' hd' => ?_
  obtain ⟨size, hstart⟩ := hstart scoring pos item
  exact hoperand size scoring pos item (hd K hc scoring item hitem) d' (hstart ▸ hd')

theorem follow_counted {o o' : Occurrence} {size size' : Option Nat} (hcount : c.Counted o size)
    (hoperand : ∀ size scoring pos item, K.Holds env.forest item ∧ item.Good → ∀ d,
      (iterate (env.focusOn size scoring pos item)).Gives d → d.Counted o' size') :
    c'.Counted (o.multiply o') (productOf size size') := by
  obtain ⟨d, link, rfl, hstart, hd, hcounted⟩ := follow_gives h
  refine chain_counted (hcounted o size hcount) fun scoring item hitem pos d' hd' => ?_
  obtain ⟨size, hstart⟩ := hstart scoring pos item
  exact hoperand size scoring pos item (hd K hc scoring item hitem) d' (hstart ▸ hd')

end Follow

/-! ### Document order -/

section Order

variable {items ordered : List Item} {scoring : Bool} (hitems : (c.drain scoring).Gives items)
  (hordered : documentOrder forest items = .ok ordered)

include hitems hordered

theorem Supplies.order (hc : c.Supplies forest K) : (ofList ordered).Supplies forest K :=
  supplies_ofList fun item hitem => hc.drain hitems item ((mem_documentOrder hordered).mp hitem)

/-- Document order keeps to an indicator, but not to a size. -/
theorem Counted.order {o : Occurrence} (hc : c.Counted o none) :
    (ofList ordered).Counted o none := by
  obtain ⟨hle, hne⟩ := documentOrder_ok hordered
  exact counted_ofList ((hc.drain hitems).dedup hle fun h =>
    List.length_pos_iff.mpr (hne (List.length_pos_iff.mp h)))

end Order

/-! ### Filters and checks -/

/-- A filter hands on items of its input, as many as its static type says. -/
theorem OfType.filterBy {call : Caller} {env : Env} {predicates : List Expr} {c' : Cursor}
    (hc : c.OfType forest τ)
    (h : (c.filterBy env predicates (fun env => meanTest call env predicates.length .zero predicates)
      (fun items => filterInTurn call env items predicates)).Gives c') : c'.OfType forest
        (filterType τ predicates) := by
  intro scoring
  obtain ⟨scoring', hsublist, hcounts⟩ := filterBy_counts h scoring
  refine ⟨fun item hitem => ?_, fun item hitem => (hc scoring').good item (hsublist.subset hitem),
    hcounts τ (hc scoring').counts⟩
  rw [filterType_item]
  exact (hc scoring').item item (hsublist.subset hitem)

theorem OfType.check {t : TypeCheck} (hc : c.OfType forest τ) :
    (c.check t forest 0).OfType forest (checkType τ t.target) := by
  intro scoring
  have hchecked : Checked t forest 0 (c.deliveries scoring) _ := c.checked 0
  refine ⟨fun item hitem => ?_, fun item hitem => ?_, ?_⟩
  · obtain ⟨source, hsource, hconform⟩ := hchecked.item item hitem
    obtain ⟨hinstance, -, hsame⟩ := conformItem_gives hconform
    rw [checkType, make_item]
    split
    · next hbelow =>
      have hitem := (hc scoring).item source hsource
      exact hsame (Item.isInstance_of_instanceOf hitem hbelow) ▸ hitem
    · exact hinstance
  · obtain ⟨source, hsource, hconform⟩ := hchecked.item item hitem
    exact (conformItem_gives hconform).2.1 ((hc scoring).good source hsource)
  · refine (hc scoring).counts.check hchecked.length_le (fun limit hlimit => ?_) fun hclean => ?_
    · simpa using hchecked.le_max limit hlimit (Nat.zero_le limit)
    · simpa using hchecked.clean hclean

end Cursor

theorem StaticType.Fits.check {items items' : List Item} {target : SeqType} {promote : Bool}
    {l : Option Location} (h : τ.Fits forest items True)
    (hitems : (checkSequence forest target promote l items).Gives items') :
    (checkType τ target).Fits forest items' True := by
  obtain ⟨hlength, hadmits, hinstances, hgood, hsame⟩ := checkSequence_gives hitems
  refine ⟨fun item hitem => ?_, hgood h.good, ?_⟩
  · rw [checkType, make_item]
    split
    · next hbelow =>
      have hitems := fun item hitem => Item.isInstance_of_instanceOf (h.item item hitem) hbelow
      exact h.item item (hsame hitems ▸ hitem)
    · exact hinstances item hitem
  · obtain ⟨hmin, hmax⟩ := Occurrence.admits_iff.mp hadmits
    exact h.counts.check (Nat.le_of_eq hlength) hmax fun _ => ⟨trivial, hlength, hmin⟩

end TreeQuery
