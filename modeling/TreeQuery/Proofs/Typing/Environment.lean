import TreeQuery.Eval.Call
import TreeQuery.Proofs.Cursor.Items
import TreeQuery.Proofs.Typing.Conformance
import TreeQuery.Proofs.Typing.Lengths
/-!
# Sequences and environments of static types

`StaticType.Fits` says of the items seen so far what a static type says of a sequence, and that
function items among them are good; a cursor is of a static type if all that it delivers fits. An
environment fits if the values of variables are of their declared types and the item in focus is as
it is known to be.
-/

namespace TreeQuery

/-- Whether items, the whole of a sequence if `complete` holds, are as a static type says. -/
structure StaticType.Fits (forest : Forest) (τ : StaticType) (items : List Item) (complete : Prop) :
    Prop where
  item : ∀ item ∈ items, item.isInstance forest τ.item = true
  good : ∀ item ∈ items, item.Good
  counts : Counts τ.occurrence τ.size items.length complete

/-- Whether a cursor delivers a sequence of a static type, pulled with or without scores. -/
def Cursor.OfType (forest : Forest) (τ : StaticType) (c : Cursor) : Prop :=
  ∀ scoring, τ.Fits forest (delivered (c.deliveries scoring)) (Clean (c.deliveries scoring))

@[simp] theorem StaticType.seqType_ofSeqType (s : SeqType) :
    (ofSeqType s).seqType = s := by cases s; rfl

variable {forest : Forest} {τ : StaticType} {items : List Item} {p q : Prop}

namespace StaticType.Fits

theorem imp (h : τ.Fits forest items p) (hpq : q → p) : τ.Fits forest items q :=
  ⟨h.item, h.good, h.counts.imp hpq⟩

theorem describes (h : τ.Fits forest items True) : τ.Describes forest items where
  item := h.item
  occurrence := h.counts.admits
  size m hm := h.counts.eq_size trivial m hm

theorem ofSeqType {s : SeqType} (hitem : ∀ item ∈ items, item.isInstance forest s.item = true)
    (hgood : ∀ item ∈ items, item.Good) (hadmits : s.occurrence.admits items.length = true) :
    (StaticType.ofSeqType s).Fits forest items p :=
  ⟨hitem, hgood, .ofSeqType hadmits⟩

theorem anything (hgood : ∀ item ∈ items, item.Good) : StaticType.anything.Fits forest items p :=
  ⟨fun _ _ => Item.isInstance_any, hgood, .of .any (by intro m hm; cases hm) fun _ => Nat.zero_le _⟩

theorem isZero_eq_false (h : τ.Fits forest items p) {item : Item} (hitem : item ∈ items) :
    τ.isZero = false := by
  refine Bool.eq_false_iff.mpr fun hzero => ?_
  have hnone : items.length ≤ 0 := h.counts.atMost 0 (by rw [eq_of_beq hzero]; rfl)
  rw [List.eq_nil_of_length_eq_zero (Nat.le_zero.mp hnone)] at hitem
  cases hitem

theorem of_instanceOf {s : SeqType} (h : τ.Fits forest items p) (hs : τ.instanceOf s = true) :
    (StaticType.ofSeqType s).Fits forest items p := by
  obtain ⟨ho, hi⟩ := SeqType.instanceOf_iff.mp hs
  have hmax : s.occurrence.AtMost items.length := h.counts.atMost.of_instanceOf ho
  refine ⟨fun item hitem => ?_, h.good, .of s.item hmax fun hp =>
    Nat.le_trans (Occurrence.min_le_of_instanceOf ho) (h.counts.min_le hp)⟩
  rcases hi with hzero | hi
  · exact absurd (beq_iff_eq.mpr hzero) (Bool.eq_false_iff.mp (h.isZero_eq_false hitem))
  · exact Item.isInstance_of_instanceOf (h.item item hitem) hi

theorem union_left {σ : StaticType} (h : τ.Fits forest items p) :
    (τ.union σ).Fits forest items p := by
  refine ⟨fun item hitem => ?_, h.good, .union (.inl h.counts)⟩
  rw [StaticType.union, make_item, if_neg (by simp [h.isZero_eq_false hitem])]
  split
  · exact h.item item hitem
  · exact Item.isInstance_of_instanceOf (h.item item hitem) (ItemType.instanceOf_union_left _ _)

theorem union_right {σ : StaticType} (h : τ.Fits forest items p) :
    (σ.union τ).Fits forest items p := by
  refine ⟨fun item hitem => ?_, h.good, .union (.inr h.counts)⟩
  rw [StaticType.union, make_item]
  split
  · exact h.item item hitem
  · rw [if_neg (by simp [h.isZero_eq_false hitem])]
    exact Item.isInstance_of_instanceOf (h.item item hitem) (ItemType.instanceOf_union_right _ _)

theorem one {i : ItemType} {item : Item} (hitem : item.isInstance forest i = true)
    (hgood : item.Good) : (StaticType.of i .one).Fits forest [item] p where
  item := by simpa [StaticType.of] using hitem
  good := by simpa using hgood
  counts := .of i (by intro m hm; exact Option.some.inj hm ▸ Nat.le_refl 1) fun _ => Nat.le_refl 1

theorem boolean (b : Bool) : StaticType.boolean.Fits forest [.atomic (.boolean b)] p :=
  one rfl trivial

end StaticType.Fits

namespace Cursor

theorem ofType_ofList (h : τ.Fits forest items True) : (ofList items).OfType forest τ :=
  fun scoring => by
  rw [delivered_ofList]
  exact h.imp fun _ => trivial

theorem OfType.drain {c : Cursor} {scoring : Bool} (h : c.OfType forest τ)
    (hitems : (c.drain scoring).Gives items) : τ.Fits forest items True := by
  obtain ⟨hdelivered, hclean, -⟩ := drain_delivered hitems
  exact hdelivered ▸ (h scoring).imp fun _ => hclean

theorem ofType_ofBool (b : Bool) : (ofBool b).OfType forest .boolean := ofType_ofList (.boolean b)

theorem ofType_ofNat (n : Nat) : (ofNat n).OfType forest (.of (.atomic .integer) .one) :=
  ofType_ofList (.one rfl trivial)

end Cursor

theorem checkSequence_fits {target : SeqType} {promote : Bool} {l : Option Location}
    {items' : List Item} (h : (checkSequence forest target promote l items).Gives items')
    (hgood : ∀ item ∈ items, item.Good) : (StaticType.ofSeqType target).Fits forest items' p := by
  obtain ⟨-, hadmits, hitem, hgood', -⟩ := checkSequence_gives h
  exact .ofSeqType hitem (hgood' hgood) hadmits

/-! ### Environments -/

/-- Whether function items among the values supplied from outside are good. -/
structure Env.Sane (env : Env) : Prop where
  globals : ∀ name value, env.globals.lookup name = some value → ∀ item ∈ value, item.Good

/-- Whether an environment is as an expression expects that was compiled for variables and for a
focus. -/
structure Env.Fits (Γ : List Variable) (K : Knowledge) (env : Env) : Prop extends env.Sane where
  locals : ∀ name value, env.locals.lookup name = some value → (∀ item ∈ value, item.Good) ∧
    ∀ v, Γ.find? (·.name == name) = some v →
      (StaticType.ofSeqType v.type).Fits env.forest value True
  focus : ∀ item, env.focus.item = some item → K.Holds env.forest item ∧ item.Good

namespace Env

variable {Γ : List Variable} {K L : Knowledge} {env : Env}

theorem Fits.focusOn (h : env.Fits Γ K) {item : Item} (hitem : L.Holds env.forest item ∧ item.Good)
    {size : Option Nat} {scoring : Bool} {position : Nat} :
    (env.focusOn size scoring position item).Fits Γ L where
  globals := h.globals
  locals := h.locals
  focus _ h' := Option.some.inj h' ▸ hitem

theorem Fits.single {forest : Forest} {v : Variable} {value : List Item}
    (h : (StaticType.ofSeqType v.type).Fits forest value True) :
    ({ Env.ofContext { forest } with locals := [(v.name, value)] } : Env).Fits [v] K where
  globals _ _ h' := by cases h'
  locals name value' h' := by
    simp only [List.lookup_cons, List.lookup_nil] at h'
    split at h'
    · obtain rfl := Option.some.inj h'
      refine ⟨h.good, fun w hw => ?_⟩
      obtain rfl : w = v := List.mem_singleton.mp (List.mem_of_find?_eq_some hw)
      exact h
    · cases h'
  focus _ h' := by cases h'

theorem contextItem_gives {item : Item} (h : env.contextItem.Gives item) :
    env.focus.item = some item := by
  unfold contextItem at h
  split at h
  · next heq => exact Logged.gives_pure.mp h ▸ heq
  · simp at h

theorem Fits.lookup (h : env.Fits Γ K) {v : Variable} (hv : Γ.find? (·.name == v.name) = some v)
    {l : Option Location} {value : List Item} (hvalue : (env.lookup v l).Gives value) :
    (StaticType.ofSeqType v.type).Fits env.forest value True := by
  unfold Env.lookup at hvalue
  split at hvalue
  · next heq => exact Logged.gives_pure.mp hvalue ▸ (h.locals v.name _ heq).2 v hv
  split at hvalue
  · simp at hvalue
  next value' heq =>
  have hgood := h.globals v.name value' heq
  unfold Variable.type
  split at hvalue
  · next declared hdeclared =>
    rw [hdeclared]
    exact checkSequence_fits hvalue hgood
  · next hdeclared =>
    rw [hdeclared]
    exact Logged.gives_pure.mp hvalue ▸ .anything hgood

/-- Parameters are bound to values of their types, one after the other; the last of one name
counts. -/
theorem bindParams_gives {l : Option Location} :
    {params : List Variable} → {args : List (List Item)} → {locals : Bindings} →
    (env.bindParams l params args).Gives locals → args.length = params.length →
    (∀ arg ∈ args, ∀ item ∈ arg, item.Good) → ∀ name,
    (locals.lookup name = none → ∀ v ∈ params, v.name ≠ name) ∧
    ∀ value, locals.lookup name = some value → (∀ item ∈ value, item.Good) ∧
      ∀ Γ : List Variable, ∀ v, (params.reverse ++ Γ).find? (·.name == name) = some v →
        (StaticType.ofSeqType v.type).Fits env.forest value True
  | [], args, locals, h, _, _, name => by
    unfold bindParams at h
    obtain rfl := Logged.gives_pure.mp h
    simp
  | _ :: _, [], _, _, hlength, _, _ => by simp at hlength
  | v :: vs, arg :: args, locals, h, hlength, hgood, name => by
    have bound : ∃ value rest, (StaticType.ofSeqType v.type).Fits env.forest value True ∧
        (env.bindParams l vs args).Gives rest ∧ locals = rest ++ [(v.name, value)] := by
      have hgood : ∀ item ∈ arg, item.Good := hgood arg List.mem_cons_self
      unfold bindParams at h
      unfold Variable.type
      split at h
      · next declared hdeclared =>
        simp only [Logged.gives_bind, Logged.gives_pure] at h
        obtain ⟨value, hvalue, rest, hrest, rfl⟩ := h
        rw [hdeclared]
        exact ⟨value, rest, checkSequence_fits hvalue hgood, hrest, rfl⟩
      · next hdeclared =>
        simp only [Logged.gives_bind, Logged.gives_pure] at h
        obtain ⟨value, rfl, rest, hrest, rfl⟩ := h
        rw [hdeclared]
        exact ⟨_, rest, .anything hgood, hrest, rfl⟩
    obtain ⟨value, rest, hvalue, hrest, rfl⟩ := bound
    obtain ⟨hnone, hsome⟩ := bindParams_gives hrest (by simpa using hlength)
      (fun arg harg => hgood arg (List.mem_cons_of_mem _ harg)) name
    simp only [List.lookup_append, List.reverse_cons, List.append_assoc, List.cons_append,
      List.nil_append]
    cases hlookup : rest.lookup name with
    | some value' =>
      refine ⟨by simp, fun value'' h => ?_⟩
      obtain rfl : value' = value'' := by simpa using h
      exact ⟨(hsome value' hlookup).1, fun Γ => (hsome value' hlookup).2 (v :: Γ)⟩
    | none =>
      by_cases hname : name = v.name
      · subst hname
        refine ⟨by simp, fun value'' h => ?_⟩
        obtain rfl : value = value'' := by simpa using h
        refine ⟨hvalue.good, fun Γ v' hv' => ?_⟩
        have hskip : vs.reverse.find? (·.name == v.name) = none := by
          simpa using hnone hlookup
        rw [List.find?_append, hskip] at hv'
        obtain rfl : v = v' := by simpa using hv'
        exact hvalue
      · have hne : (name == v.name) = false := by simpa using hname
        refine ⟨fun _ => ?_, fun value'' h => by simp [List.lookup_cons, hne] at h⟩
        simp only [List.mem_cons, forall_eq_or_imp]
        exact ⟨fun h => hname h.symm, hnone hlookup⟩

end Env

end TreeQuery
