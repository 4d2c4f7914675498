import TreeQuery.Item.Conformance
import TreeQuery.Proofs.Typing.Occurrence
/-!
# Subtypes

Comparing types is reflexive and transitive in either direction, a union lies above its operands,
and an item of a type is an item of every type above it.
-/

namespace TreeQuery

/-! ### Reflexivity -/

mutual

theorem ItemType.relates_refl (v : Variance) : (a : ItemType) → a.relates v a = true
  | .functionOf s => by rw [ItemType.relates]; exact Signature.relates_refl v s
  | .any | .node | .function => by cases v <;> rfl
  | .kind k => by cases v <;> simp [ItemType.relates, Variance.apply, ItemType.surfaceInstanceOf]
  | .atomic t => by
    cases v <;> simp [ItemType.relates, Variance.apply, ItemType.surfaceInstanceOf,
      AtomicType.instanceOf]

theorem SeqType.relates_refl (v : Variance) : (s : SeqType) → s.relates v s = true
  | ⟨i, o⟩ => by
    cases v <;> simp [SeqType.relates, Variance.apply, ItemType.relates_refl _ i,
      Occurrence.instanceOf_refl]

theorem Signature.relates_refl (v : Variance) : (s : Signature) → s.relates v s = true
  | ⟨ps, r⟩ => by simp [Signature.relates, seqTypesRelate_refl v.flip ps, SeqType.relates_refl v r]

theorem seqTypesRelate_refl (v : Variance) : (ss : List SeqType) → seqTypesRelate v ss ss = true
  | [] => rfl
  | s :: ss => by simp [seqTypesRelate, SeqType.relates_refl v s, seqTypesRelate_refl v ss]

end

theorem ItemType.instanceOf_refl (a : ItemType) : a.instanceOf a = true :=
  ItemType.relates_refl .co a

theorem Signature.instanceOf_refl (s : Signature) : s.instanceOf s = true :=
  Signature.relates_refl .co s

/-! ### Transitivity -/

theorem AtomicType.instanceOf_trans {a b c : AtomicType} (h : a.instanceOf b = true)
    (h' : b.instanceOf c = true) : a.instanceOf c = true := by
  revert h h'
  cases a <;> cases b <;> cases c <;> decide

namespace ItemType

def isSigned : ItemType → Bool
  | .functionOf _ => true
  | _ => false

theorem relates_eq_surface {v : Variance} {a b : ItemType}
    (h : a.isSigned = false ∨ b.isSigned = false) :
    a.relates v b = v.apply surfaceInstanceOf a b := by
  cases a with
  | functionOf s => cases b <;> simp [isSigned] at h <;> rfl
  | _ => rfl

theorem surface_trans {a b c : ItemType} (h : a.surfaceInstanceOf b = true)
    (h' : b.surfaceInstanceOf c = true) : a.surfaceInstanceOf c = true := by
  cases c with
  | any => cases a <;> rfl
  | node => cases b <;> simp [surfaceInstanceOf] at h' <;> cases a <;> simp_all [surfaceInstanceOf]
  | kind k =>
    cases b <;> simp [surfaceInstanceOf] at h'
    cases a <;> simp_all [surfaceInstanceOf]
  | atomic t =>
    cases b with
    | atomic u =>
      cases a with
      | atomic w => exact AtomicType.instanceOf_trans h h'
      | _ => simp [surfaceInstanceOf] at h
    | _ => simp [surfaceInstanceOf] at h'
  | function =>
    cases b <;> simp [surfaceInstanceOf] at h' <;> cases a <;> simp_all [surfaceInstanceOf]
  | functionOf s => cases b <;> simp [surfaceInstanceOf] at h'

/-- What lies above a type of functions with a signature at the surface lies there for all of
them. -/
theorem surface_functionOf {s t : Signature} {c : ItemType}
    (h : (functionOf s).surfaceInstanceOf c = true) :
    (functionOf t).surfaceInstanceOf c = true := by
  cases c <;> simp_all [surfaceInstanceOf]

@[simp] theorem surface_functionOf_right {a : ItemType} {s : Signature} :
    a.surfaceInstanceOf (functionOf s) = false := by
  cases a <;> rfl

/-- A subtype of a type that has no signature is one at the surface. -/
theorem relates_trans_of_surface {v : Variance} {a b c : ItemType}
    (hs : ¬(a.isSigned ∧ b.isSigned ∧ c.isSigned)) (h : a.relates v b = true)
    (h' : b.relates v c = true) : a.relates v c = true := by
  by_cases hb : b.isSigned = true
  · cases b <;> simp [isSigned] at hb
    by_cases ha : a.isSigned = true
    · -- only the third type has no signature
      have hc : c.isSigned = false := Bool.eq_false_iff.mpr fun hc => hs ⟨ha, rfl, hc⟩
      cases a <;> simp [isSigned] at ha
      rw [relates_eq_surface (.inr hc)] at h' ⊢
      cases v with
      | co => exact surface_functionOf h'
      | contra => simp [Variance.apply] at h'
    · rw [relates_eq_surface (.inl (by simpa using ha))] at h ⊢
      cases v with
      | co => simp [Variance.apply] at h
      | contra =>
        cases c with
        | functionOf u => exact surface_functionOf h
        | _ => simp [relates, Variance.apply] at h'
  · have hb : b.isSigned = false := by simpa using hb
    rw [relates_eq_surface (.inr hb)] at h
    rw [relates_eq_surface (.inl hb)] at h'
    have hac : a.isSigned = false ∨ c.isSigned = false := by
      cases v with
      | co => exact .inr (by cases c <;> simp_all [Variance.apply, isSigned])
      | contra => exact .inl (by cases a <;> simp_all [Variance.apply, isSigned])
    rw [relates_eq_surface hac]
    cases v with
    | co => exact surface_trans h h'
    | contra => exact surface_trans h' h

end ItemType

theorem Occurrence.ne_zero_of_instanceOf {a b : Occurrence} (h : a.instanceOf b = true)
    (ha : (a == .zero) = false) : (b == .zero) = false := by
  revert h ha
  cases a <;> cases b <;> decide

mutual

theorem ItemType.relates_trans {v : Variance} :
    {a b c : ItemType} → a.relates v b = true → b.relates v c = true →
    a.relates v c = true
  | .functionOf s, b, c, h, h' => by
    by_cases hs : b.isSigned ∧ c.isSigned
    · cases b <;> simp [ItemType.isSigned] at hs
      cases c <;> simp at hs
      rw [ItemType.relates] at h h' ⊢
      exact Signature.relates_trans h h'
    · exact ItemType.relates_trans_of_surface (fun hall => hs hall.2) h h'
  | .any, _, _, h, h' | .node, _, _, h, h' | .kind _, _, _, h, h' | .atomic _, _, _, h,
      h' | .function, _, _, h, h' =>
    ItemType.relates_trans_of_surface (by simp [ItemType.isSigned]) h h'

theorem SeqType.relates_trans {v : Variance} :
    {a b c : SeqType} → a.relates v b = true → b.relates v c = true →
    a.relates v c = true
  | ⟨i, o⟩, ⟨j, p⟩, ⟨k, q⟩, h, h' => by
    simp only [SeqType.relates, Bool.and_eq_true, Bool.or_eq_true] at h h' ⊢
    cases v with
    | co =>
      refine ⟨Occurrence.instanceOf_trans h.1 h'.1, ?_⟩
      by_cases ho : (o == .zero) = true
      · exact .inl ho
      · have hp := Occurrence.ne_zero_of_instanceOf h.1 (by simpa using ho)
        exact .inr
          (ItemType.relates_trans (h.2.resolve_left ho)
          (h'.2.resolve_left (by simpa [Variance.apply] using hp)))
    | contra =>
      refine ⟨Occurrence.instanceOf_trans h'.1 h.1, ?_⟩
      by_cases hq : (q == .zero) = true
      · exact .inl hq
      · have hp := Occurrence.ne_zero_of_instanceOf h'.1 (by simpa using hq)
        exact .inr (ItemType.relates_trans (h.2.resolve_left (by simpa [Variance.apply] using hp))
          (h'.2.resolve_left hq))

theorem Signature.relates_trans {v : Variance} :
    {a b c : Signature} → a.relates v b = true → b.relates v c = true →
    a.relates v c = true
  | ⟨ps, r⟩, ⟨qs, s⟩, ⟨us, t⟩, h, h' => by
    simp only [Signature.relates, Bool.and_eq_true, beq_iff_eq] at h h' ⊢
    exact ⟨⟨h.1.1.trans h'.1.1, seqTypesRelate_trans h.1.1 h.1.2 h'.1.2⟩,
      SeqType.relates_trans h.2 h'.2⟩

theorem seqTypesRelate_trans {v : Variance} : {as bs cs : List SeqType} → as.length = bs.length →
    seqTypesRelate v as bs = true → seqTypesRelate v bs cs = true → seqTypesRelate v as cs = true
  | [], _, _, _, _, _ => by simp [seqTypesRelate]
  | _ :: _, [], _, h, _, _ => by simp at h
  | _ :: _, _ :: _, [], _, _, _ => by simp [seqTypesRelate]
  | a :: as, b :: bs, c :: cs, hl, h, h' => by
    simp only [seqTypesRelate, Bool.and_eq_true] at h h' ⊢
    exact ⟨SeqType.relates_trans h.1 h'.1, seqTypesRelate_trans (by simpa using hl) h.2 h'.2⟩

end

theorem ItemType.instanceOf_trans {a b c : ItemType} (h : a.instanceOf b = true)
    (h' : b.instanceOf c = true) : a.instanceOf c = true := ItemType.relates_trans h h'

theorem SeqType.instanceOf_trans {a b c : SeqType} (h : a.instanceOf b = true)
    (h' : b.instanceOf c = true) : a.instanceOf c = true := SeqType.relates_trans h h'

theorem Signature.instanceOf_trans {a b c : Signature} (h : a.instanceOf b = true)
    (h' : b.instanceOf c = true) : a.instanceOf c = true := Signature.relates_trans h h'

theorem SeqType.instanceOf_iff {s t : SeqType} : s.instanceOf t = true ↔
    s.occurrence.instanceOf t.occurrence = true ∧
    (s.occurrence = .zero ∨ s.item.instanceOf t.item = true) := by
  obtain ⟨i, o⟩ := s
  obtain ⟨j, p⟩ := t
  simp only [SeqType.instanceOf, SeqType.relates, Variance.apply, Bool.and_eq_true,
    Bool.or_eq_true, beq_iff_eq]
  rfl

theorem Signature.result_instanceOf {s t : Signature} (h : s.instanceOf t = true) :
    s.result.instanceOf t.result = true := by
  obtain ⟨ps, r⟩ := s
  obtain ⟨qs, r'⟩ := t
  simp only [Signature.instanceOf, Signature.relates, Bool.and_eq_true] at h
  exact h.2

namespace ItemType

theorem instanceOf_any (a : ItemType) : a.instanceOf .any = true := by
  cases a <;> simp [instanceOf, relates, Variance.apply, surfaceInstanceOf]

/-! ### Unions -/

theorem instanceOf_union_left (a b : ItemType) : a.instanceOf (a.union b) = true := by
  unfold union
  split
  · next h => exact h
  split
  · exact instanceOf_refl a
  · next h h' =>
    cases a <;> cases b <;>
      simp_all [instanceOf, relates, Variance.apply, surfaceInstanceOf, AtomicType.instanceOf]

theorem instanceOf_union_right (a b : ItemType) : b.instanceOf (a.union b) = true := by
  unfold union
  split
  · exact instanceOf_refl b
  split
  · next h => exact h
  · next h h' =>
    cases a <;> cases b <;>
      simp_all [instanceOf, relates, Variance.apply, surfaceInstanceOf, AtomicType.instanceOf]

theorem union_atomic_instanceOf {t u : AtomicType} {c : ItemType}
    (ht : (atomic t).instanceOf c = true) (hu : (atomic u).instanceOf c = true) :
    ((atomic t).union (atomic u)).instanceOf c = true := by
  unfold union
  split
  · exact hu
  split
  · exact ht
  · next h h' =>
    cases c with
    | any => rfl
    | atomic w =>
      simp only [instanceOf, relates, Variance.apply, surfaceInstanceOf] at ht hu h h' ⊢
      revert ht hu h h'
      cases t <;> cases u <;> cases w <;> decide
    | _ => simp [instanceOf, relates, Variance.apply, surfaceInstanceOf] at ht

end ItemType

/-! ### Items of types -/

theorem ItemType.admits_iff {t : ItemType} {v : Atomic} :
    t.admits v = true ↔ (atomic v.type).instanceOf t = true := by
  cases t <;> simp [admits, admitsAtomic, instanceOf, relates, Variance.apply, surfaceInstanceOf]

def Item.typeOf (forest : Forest) : Item → ItemType
  | .node n => .kind (forest.kind n)
  | .atomic v => .atomic v.type
  | .function f => .functionOf f.signature

theorem Item.isInstance_iff {forest : Forest} {item : Item} {t : ItemType} :
    item.isInstance forest t = true ↔ (item.typeOf forest).instanceOf t = true := by
  cases item with
  | node n =>
    cases t <;> simp [isInstance, typeOf, ItemType.admitsKind, ItemType.instanceOf,
      ItemType.relates, Variance.apply, ItemType.surfaceInstanceOf]
    exact eq_comm
  | atomic v => exact ItemType.admits_iff
  | function f =>
    cases t <;> simp [isInstance, typeOf, ItemType.admitsFunction, ItemType.instanceOf,
      ItemType.relates, Variance.apply, ItemType.surfaceInstanceOf, Signature.instanceOf]

theorem Item.isInstance_of_instanceOf {forest : Forest} {item : Item} {a b : ItemType}
    (h : item.isInstance forest a = true) (hab : a.instanceOf b = true) :
    item.isInstance forest b = true :=
  isInstance_iff.mpr (ItemType.instanceOf_trans (isInstance_iff.mp h) hab)

theorem Item.isInstance_any {forest : Forest} {item : Item} : item.isInstance forest .any = true :=
  isInstance_iff.mpr (ItemType.instanceOf_any _)

end TreeQuery
