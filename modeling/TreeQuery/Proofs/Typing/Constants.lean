import TreeQuery.Proofs.Typing.Describes
import TreeQuery.Proofs.Typing.Subtype
/-!
# The static type of constants

`literalType` is the least type above all values: every value is of it, and it lies below every type
that all values are of.
-/

namespace TreeQuery

def widen (seen : Option ItemType) (v : Atomic) : Option ItemType :=
  some (match seen with
    | some s => s.union (.atomic v.type)
    | none => .atomic v.type)

theorem literalType_eq (values : List Atomic) :
    literalType values = .sized ((values.foldl widen none).getD .any) values.length := rfl

theorem ItemType.union_atomic (t u : AtomicType) : ∃ w, (atomic t).union (atomic u) = atomic w := by
  unfold union
  split
  · exact ⟨u, rfl⟩
  split
  · exact ⟨t, rfl⟩
  · exact ⟨_, rfl⟩

theorem foldl_widen_instanceOf {c : ItemType} :
    (values : List Atomic) → (∀ v ∈ values, c.admits v = true) →
    (seen : Option ItemType) → (∀ s, seen = some s → ∃ t, s = .atomic t ∧ s.instanceOf c = true) →
    ∀ s, values.foldl widen seen = some s → s.instanceOf c = true
  | [], _, _, hseen, s, hs => (hseen s hs).choose_spec.2
  | v :: values, hvalues, seen, hseen, s, hs => by
    have hv : (ItemType.atomic v.type).instanceOf c = true :=
      ItemType.admits_iff.mp (hvalues v List.mem_cons_self)
    refine foldl_widen_instanceOf values (fun v hv => hvalues v (List.mem_cons_of_mem _ hv))
      (widen seen v) ?_ s hs
    intro s' hs'
    cases seen with
    | none =>
      obtain rfl := Option.some.inj hs'
      exact ⟨v.type, rfl, hv⟩
    | some s =>
      obtain rfl := Option.some.inj hs'
      obtain ⟨t, rfl, ht⟩ := hseen s rfl
      obtain ⟨w, hw⟩ := ItemType.union_atomic t v.type
      exact ⟨w, hw, ItemType.union_atomic_instanceOf ht hv⟩

theorem instanceOf_foldl_widen {a : ItemType} :
    (values : List Atomic) → (s : ItemType) → a.instanceOf s = true →
    ∃ u, values.foldl widen (some s) = some u ∧ a.instanceOf u = true
  | [], s, h => ⟨s, rfl, h⟩
  | v :: values, s, h => instanceOf_foldl_widen values (s.union (.atomic v.type))
      (ItemType.instanceOf_trans h (ItemType.instanceOf_union_left _ _))

theorem admits_foldl_widen {v : Atomic} :
    (values : List Atomic) → (seen : Option ItemType) → v ∈ values →
    ∃ u, values.foldl widen seen = some u ∧ u.admits v = true
  | w :: values, seen, h => by
    rcases List.mem_cons.mp h with rfl | h
    · have hseen : ∃ s, widen seen v = some s ∧ (ItemType.atomic v.type).instanceOf s = true := by
        cases seen with
        | none => exact ⟨_, rfl, ItemType.instanceOf_refl _⟩
        | some s => exact ⟨_, rfl, ItemType.instanceOf_union_right _ _⟩
      obtain ⟨s, hs, hvs⟩ := hseen
      obtain ⟨u, hu, hvu⟩ := instanceOf_foldl_widen values s hvs
      exact ⟨u, by rw [List.foldl_cons, hs, hu], ItemType.admits_iff.mpr hvu⟩
    · exact admits_foldl_widen values (widen seen w) h

theorem literalType_admits {values : List Atomic} {v : Atomic} (h : v ∈ values) :
    (literalType values).item.admits v = true := by
  obtain ⟨u, hu, hv⟩ := admits_foldl_widen values none h
  simpa [literalType_eq, StaticType.sized, hu] using hv

theorem literalType_instanceOf {values : List Atomic} {target : SeqType}
    (hitem : ∀ v ∈ values, target.item.admits v = true)
    (hlength : target.occurrence.admits values.length = true) :
    (literalType values).instanceOf target = true := by
  rw [literalType_eq, StaticType.instanceOf, SeqType.instanceOf_iff]
  refine ⟨Occurrence.ofSize_instanceOf hlength, ?_⟩
  cases hfold : values.foldl widen none with
  | none =>
    left
    cases values with
    | nil => rfl
    | cons v values =>
      obtain ⟨u, hu, -⟩ := admits_foldl_widen (v :: values) none List.mem_cons_self
      simp [hfold] at hu
  | some s => exact .inr (foldl_widen_instanceOf values hitem none (by simp) s hfold)

end TreeQuery
