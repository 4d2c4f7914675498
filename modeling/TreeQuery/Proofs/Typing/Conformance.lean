import TreeQuery.Proofs.Outcome
import TreeQuery.Proofs.Typing.Focus
/-!
# What checks let through

A cast gives a value of the type that is asked for, promotion an item of it, and a check a sequence
of its target that is as long as the sequence that was checked. Items that are of the target's type
already stay as they are.
-/

namespace TreeQuery

theorem castText_type {s : String} {t : AtomicType} {v : Atomic} (h : castText s t = .ok v) :
    v.type.instanceOf t = true := by
  cases t <;> simp only [castText] at h
  case anyAtomic | untypedAtomic | string | anyURI =>
    obtain rfl := Except.ok.inj h
    rfl
  all_goals
    split at h
    · next w hw =>
      obtain rfl := Except.ok.inj h
      obtain ⟨x, -, rfl⟩ := Option.map_eq_some_iff.mp hw
      rfl
    · cases h

theorem Atomic.promote_type {v w : Atomic} {t : AtomicType} (h : v.promote t = .ok (some w)) :
    w.type.instanceOf t = true := by
  cases v with
  | untyped s =>
    simp only [Atomic.promote] at h
    cases hs : castText s t with
    | error e => simp [hs, Except.map] at h
    | ok x =>
      simp only [hs, Except.map, Except.ok.injEq, Option.some.injEq] at h
      exact h ▸ castText_type hs
  | boolean _ | string _ | double _ => cases t <;> simp [Atomic.promote] at h
  | integer _ | decimal _ | float _ | anyURI _ =>
    cases t <;> simp only [Atomic.promote, Except.ok.injEq, Option.some.injEq,
      reduceCtorEq] at h <;> (subst h; rfl)

namespace FunctionItem

theorem coerce_ok {f g : FunctionItem} {s : Signature} (h : f.coerce s = .ok g) :
    g.signature.instanceOf s = true ∧ (f.Good → g.Good) := by
  unfold coerce at h
  split at h
  · cases h
  split at h
  · next hs =>
    obtain rfl := Except.ok.inj h
    exact ⟨hs, id⟩
  · obtain rfl := Except.ok.inj h
    exact ⟨Signature.instanceOf_refl s, fun hf => by simpa only [FunctionItem.Good] using hf⟩

end FunctionItem

namespace Item

variable {forest : Forest}

theorem promote_gives {item item' : Item} {t : ItemType}
    (h : (item.promote forest t).Gives (some item')) :
    item'.isInstance forest t = true ∧ (item.Good → item'.Good) := by
  cases item with
  | node n =>
    cases t <;> simp only [promote, Logged.gives_pure, reduceCtorEq] at h
    rw [Logged.gives_lift] at h
    next t =>
      cases hs : castText (forest.stringValue n) t with
      | error e => simp [hs, Except.map] at h
      | ok v =>
        simp only [hs, Except.map, Except.ok.injEq, Option.some.injEq] at h
        subst h
        exact ⟨castText_type hs, fun _ => trivial⟩
  | atomic v =>
    cases t <;> simp only [promote, Logged.gives_pure, reduceCtorEq] at h
    rw [Logged.gives_lift] at h
    next t =>
      cases hs : v.promote t with
      | error e => simp [hs, Except.map] at h
      | ok w =>
        simp only [hs, Except.map, Except.ok.injEq, Option.map_eq_some_iff] at h
        obtain ⟨w, rfl, rfl⟩ := h
        exact ⟨Atomic.promote_type hs, fun _ => trivial⟩
  | function f =>
    cases t <;> simp only [promote, Logged.gives_pure, reduceCtorEq] at h
    simp only [Logged.gives_bind, Logged.gives_lift, Logged.gives_ite, Logged.gives_pure,
      Option.some.injEq] at h
    obtain ⟨g, hg, ⟨-, -, -, rfl⟩ | ⟨-, rfl⟩⟩ := h
    · exact FunctionItem.coerce_ok hg
    · exact FunctionItem.coerce_ok hg

end Item

variable {forest : Forest} {target : SeqType} {promote : Bool} {l : Option Location}

theorem conformItem_gives {item item' : Item}
    (h : (conformItem forest target promote l item).Gives item') :
    item'.isInstance forest target.item = true ∧ (item.Good → item'.Good) ∧
      (item.isInstance forest target.item = true → item' = item) := by
  unfold conformItem at h
  split at h
  · next hi =>
    obtain rfl := Logged.gives_pure.mp h
    exact ⟨hi, id, fun _ => rfl⟩
  · next hi =>
    simp only [Logged.gives_ite, Logged.gives_bind, Logged.gives_pure] at h
    obtain ⟨-, promoted, hpromoted, h⟩ | ⟨-, promoted, rfl, h⟩ := h
    · cases promoted with
      | none => simp at h
      | some item'' =>
        obtain rfl := Logged.gives_pure.mp h
        obtain ⟨hinstance, hgood⟩ := Item.promote_gives hpromoted
        exact ⟨hinstance, hgood, fun h => absurd h hi⟩
    · simp at h

theorem mapM_conformItem_gives : {items items' : List Item} →
    (items.mapM (conformItem forest target promote l)).Gives items' → items'.length = items.length ∧
      (∀ item ∈ items', item.isInstance forest target.item = true) ∧
      ((∀ item ∈ items, item.Good) → ∀ item ∈ items', item.Good) ∧
      ((∀ item ∈ items, item.isInstance forest target.item = true) → items' = items)
  | [], items', h => by
    simp only [List.mapM_nil, Logged.gives_pure] at h
    simp [← h]
  | item :: items, items', h => by
    simp only [List.mapM_cons, Logged.gives_bind, Logged.gives_pure] at h
    obtain ⟨first, hfirst, rest, hrest, rfl⟩ := h
    obtain ⟨hinstance, hgood, hsame⟩ := conformItem_gives hfirst
    obtain ⟨hlength, hinstances, hgoods, hsames⟩ := mapM_conformItem_gives hrest
    simp only [List.forall_mem_cons, List.length_cons, List.cons.injEq]
    exact ⟨by omega, ⟨hinstance, hinstances⟩, fun h => ⟨hgood h.1,
      hgoods h.2⟩, fun h => ⟨hsame h.1, hsames h.2⟩⟩

/-- What a check lets through has the length of what it was given, and is of its target. -/
theorem checkSequence_gives {items items' : List Item}
    (h : (checkSequence forest target promote l items).Gives items') :
    items'.length = items.length ∧ target.occurrence.admits items'.length = true ∧
      (∀ item ∈ items', item.isInstance forest target.item = true) ∧
      ((∀ item ∈ items, item.Good) → ∀ item ∈ items', item.Good) ∧
      ((∀ item ∈ items, item.isInstance forest target.item = true) → items' = items) := by
  unfold checkSequence at h
  split at h
  · next hadmits =>
    obtain ⟨hlength, hrest⟩ := mapM_conformItem_gives h
    exact ⟨hlength, hlength ▸ hadmits, hrest⟩
  · simp at h

end TreeQuery
