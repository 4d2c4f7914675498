import TreeQuery.Proofs.Typing.Describes
import TreeQuery.Proofs.Typing.Subtype
/-!
# Subtyping as a preorder on types

Parameters of a function are compared the other way round, at every depth:
`Signature.instanceOf_iff` reads the order off the direction that the comparison carries along.
`SeqType.Admits` says that a sequence is one of a type, as the check without promotion finds it;
`SeqType.Admits.of_instanceOf` moves sequences up. `subtyping_preorder` puts the laws of items and
sequences together.
-/

namespace TreeQuery

/-! ### The order, direction by direction -/

mutual

theorem ItemType.relates_flip (v : Variance) : (a b : ItemType) → a.relates v.flip b = b.relates v a
  | .functionOf s, .functionOf t => by simp only [ItemType.relates, Signature.relates_flip v s t]
  | .functionOf _, .any | .functionOf _, .node | .functionOf _, .kind _ | .functionOf _,
      .atomic _ | .functionOf _, .function =>
    by cases v <;> rfl
  | .any, b | .node, b | .kind _, b | .atomic _, b | .function, b => by cases v <;> cases b <;> rfl

theorem SeqType.relates_flip (v : Variance) : (s t : SeqType) → s.relates v.flip t = t.relates v s
  | ⟨i, _⟩, ⟨j, _⟩ => by
    cases v <;> simp only [SeqType.relates, ItemType.relates_flip _ i j] <;> rfl

theorem Signature.relates_flip (v : Variance) :
    (s t : Signature) → s.relates v.flip t = t.relates v s
  | ⟨ps, r⟩, ⟨qs, u⟩ => by
    simp only [Signature.relates, seqTypesRelate_flip v.flip ps qs, SeqType.relates_flip v r u,
      BEq.comm (a := ps.length)]

theorem seqTypesRelate_flip (v : Variance) :
    (ss ts : List SeqType) → seqTypesRelate v.flip ss ts = seqTypesRelate v ts ss
  | [], [] | [], _ :: _ | _ :: _, [] => rfl
  | s :: ss, t :: ts => by
    simp only [seqTypesRelate, SeqType.relates_flip v s t, seqTypesRelate_flip v ss ts]

end

theorem seqTypesRelate_iff {ss ts : List SeqType} :
    seqTypesRelate .co ss ts = true ↔ ∀ p ∈ ss.zip ts, p.1.instanceOf p.2 = true := by
  induction ss generalizing ts with
  | nil => simp [seqTypesRelate]
  | cons s ss ih =>
    cases ts with
    | nil => simp [seqTypesRelate]
    | cons t ts => simp [seqTypesRelate, SeqType.instanceOf, ih]

/-- Function subtyping: as many parameters, each of them below the other's, and a result above the
other's. -/
theorem Signature.instanceOf_iff {s t : Signature} : s.instanceOf t = true ↔
    s.arity = t.arity ∧ (∀ p ∈ t.params.zip s.params, p.1.instanceOf p.2 = true) ∧
    s.result.instanceOf t.result = true := by
  obtain ⟨ps, r⟩ := s
  obtain ⟨qs, u⟩ := t
  rw [← seqTypesRelate_iff, ← seqTypesRelate_flip]
  simp only [instanceOf, relates, SeqType.instanceOf, arity, Variance.flip, Bool.and_eq_true,
    beq_iff_eq, and_assoc]

/-! ### Sequences of a type -/

variable {forest : Forest} {s t : SeqType} {items : List Item}

/-- The sequence is one of the type: its items are of the item type, and there are as many as the
indicator allows. -/
structure SeqType.Admits (forest : Forest) (s : SeqType) (items : List Item) : Prop where
  item : ∀ item ∈ items, item.isInstance forest s.item = true
  occurrence : s.occurrence.admits items.length = true

theorem StaticType.Describes.admits {τ : StaticType} (h : τ.Describes forest items) :
    τ.seqType.Admits forest items :=
  ⟨h.item, h.occurrence⟩

theorem SeqType.Admits.of_instanceOf (h : s.Admits forest items) (hst : s.instanceOf t = true) :
    t.Admits forest items := by
  obtain ⟨hoccurrence, hitem⟩ := SeqType.instanceOf_iff.mp hst
  refine ⟨?_, Occurrence.admits_of_instanceOf hoccurrence h.occurrence⟩
  rcases hitem with hzero | hitem
  · -- the item type of the empty sequence says nothing, and there is nothing to say it of
    have hempty : items = [] := by
      have := h.occurrence
      rw [hzero] at this
      simpa [Occurrence.admits, Occurrence.min, Occurrence.max] using this
    rw [hempty]
    exact List.forall_mem_nil _
  · exact fun item hmem => Item.isInstance_of_instanceOf (h.item item hmem) hitem

theorem mapM_conformItem_of_instance {promote : Bool} {l : Option Location}
    (h : ∀ item ∈ items, item.isInstance forest t.item = true) :
    items.mapM (conformItem forest t promote l) = pure items := by
  induction items with
  | nil => rfl
  | cons item items ih =>
    rw [List.forall_mem_cons] at h
    have hfirst : conformItem forest t promote l item = pure item := by rw [conformItem, if_pos h.1]
    simp only [List.mapM_cons, hfirst, ih h.2, Logged.pure_bind]

theorem SeqType.Admits.checkSequence_eq {promote : Bool} {l : Option Location}
    (h : t.Admits forest items) : checkSequence forest t promote l items = pure items := by
  rw [checkSequence, if_pos h.occurrence, mapM_conformItem_of_instance h.item]

theorem SeqType.Admits.checked {promote : Bool} {l : Option Location} (h : t.Admits forest items) :
    (checkSequence forest t promote l items).Gives items := by
  rw [h.checkSequence_eq, Logged.gives_pure]

theorem isInstance_of_mapM_conformItem {l : Option Location} {results : List Item}
    (h : (items.mapM (conformItem forest t false l)).Gives results) :
    ∀ item ∈ items, item.isInstance forest t.item = true := by
  induction items generalizing results with
  | nil => exact List.forall_mem_nil _
  | cons item items ih =>
    simp only [List.mapM_cons, Logged.gives_bind, Logged.gives_pure] at h
    obtain ⟨first, hfirst, rest, hrest, -⟩ := h
    refine List.forall_mem_cons.mpr ⟨?_, ih hrest⟩
    rw [conformItem] at hfirst
    split at hfirst
    · assumption
    · simp at hfirst

/-- The check without promotion lets through the sequences of the type and no others. -/
theorem SeqType.checked_iff_admits {l : Option Location} {results : List Item} :
    (checkSequence forest t false l items).Gives results ↔ t.Admits forest items ∧
    results = items := by
  constructor
  · intro h
    have hadmits : t.Admits forest items := by
      rw [checkSequence] at h
      split at h
      · next hoccurrence => exact ⟨isInstance_of_mapM_conformItem h, hoccurrence⟩
      · simp at h
    exact ⟨hadmits, h.unique hadmits.checked⟩
  · rintro ⟨h, rfl⟩
    exact h.checked

/-! ### The laws of subtyping -/

theorem SeqType.instanceOf_refl (s : SeqType) : s.instanceOf s = true := SeqType.relates_refl .co s

/-- Subtyping of item types, sequence types and signatures is reflexive and transitive, a union is a
supertype of its operands, and what is of a type is of every supertype. -/
theorem subtyping_preorder (forest : Forest) :
    ((∀ a : ItemType, a.instanceOf a = true) ∧ (∀ s : SeqType, s.instanceOf s = true) ∧
      ∀ f : Signature, f.instanceOf f = true) ∧
    ((∀ a b c : ItemType, a.instanceOf b = true → b.instanceOf c = true → a.instanceOf c = true) ∧
      (∀ s t u : SeqType, s.instanceOf t = true → t.instanceOf u = true → s.instanceOf u = true) ∧
      ∀ f g h : Signature, f.instanceOf g = true → g.instanceOf h = true → f.instanceOf h = true) ∧
    (∀ a b : ItemType, a.instanceOf (a.union b) = true ∧ b.instanceOf (a.union b) = true) ∧
    (∀ (item : Item) (a b : ItemType), item.isInstance forest a = true → a.instanceOf b = true →
      item.isInstance forest b = true) ∧
    ∀ (items : List Item) (s t : SeqType), s.Admits forest items → s.instanceOf t = true →
    t.Admits forest items :=
  ⟨⟨ItemType.instanceOf_refl, SeqType.instanceOf_refl, Signature.instanceOf_refl⟩,
    ⟨fun _ _ _ => ItemType.instanceOf_trans, fun _ _ _ => SeqType.instanceOf_trans,
      fun _ _ _ => Signature.instanceOf_trans⟩,
    fun a b => ⟨ItemType.instanceOf_union_left a b, ItemType.instanceOf_union_right a b⟩,
    fun _ _ _ => Item.isInstance_of_instanceOf, fun _ _ _ h => h.of_instanceOf⟩

/-- A function that takes functions on integers lies below those that take functions on decimals,
and below the functions. -/
theorem subtyping_preorder_higher_order :
    let onIntegers : ItemType := .functionOf ⟨[.one (.atomic .integer)], .one (.atomic .decimal)⟩
    let onDecimals : ItemType :=
      .functionOf ⟨[.optional (.atomic .decimal)], .one (.atomic .integer)⟩
    let lower : Signature := ⟨[.one onIntegers], ⟨.node, .zero⟩⟩
    let upper : Signature := ⟨[.one onDecimals], .many (.atomic .string)⟩
    let f : Item := .function (.inline none lower [] default)
    (SeqType.one (.functionOf lower)).instanceOf (.many .function) = true ∧
      (SeqType.many .function).Admits (.empty false) [f] ∧
      f.isInstance (.empty false) (.functionOf upper) = true := by
  intro onIntegers onDecimals lower upper f
  obtain ⟨-, ⟨-, trans, -⟩, -, item, sequence⟩ := subtyping_preorder (.empty false)
  have hlower : (SeqType.one (.functionOf lower)).instanceOf (.optional (.functionOf upper)) =
    true := by decide
  have hupper : (SeqType.optional (.functionOf upper)).instanceOf (.many .function) =
    true := by decide
  have hbelow := trans _ _ _ hlower hupper
  have hf : (SeqType.one (.functionOf lower)).Admits (.empty false) [f] := ⟨by decide, by decide⟩
  exact ⟨hbelow, sequence _ _ _ hf hbelow,
    item f (.functionOf lower) (.functionOf upper) (by decide) (by decide)⟩

end TreeQuery
