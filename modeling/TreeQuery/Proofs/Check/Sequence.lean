import Mathlib.Data.List.Forall2
import TreeQuery.Proofs.Typing.Conformance
import TreeQuery.Proofs.Typing.Preorder
/-!
# What a checked sequence is

A check works item by item (`checkSequence_iff`): an item of the target's type stays, any other one
becomes the one item that promotion makes of it, which is of that type. So a checked sequence is one
of the target, as long as the sequence that was checked and different only where that had something
to promote, and a second check finds nothing to do, whether it may promote or not:
`checkSequence_conforms`.
-/

namespace TreeQuery

variable {forest : Forest} {target : SeqType} {promote : Bool} {l : Option Location}
    {items out : List Item}

theorem mapM_gives_iff {α β : Type} {f : α → Run β} {as : List α} {bs : List β} :
    (as.mapM f).Gives bs ↔ List.Forall₂ (fun a b => (f a).Gives b) as bs := by
  induction as generalizing bs with
  | nil => simp [List.forall₂_nil_left_iff, eq_comm]
  | cons a as ih =>
    simp only [List.mapM_cons, Logged.gives_bind, Logged.gives_pure, ih, List.forall₂_cons_left_iff]
    constructor
    · rintro ⟨b, hb, bs, hbs, rfl⟩
      exact ⟨b, bs, hb, hbs, rfl⟩
    · rintro ⟨b, bs, hb, hbs, rfl⟩
      exact ⟨b, hb, bs, hbs, rfl⟩

theorem checkSequence_iff : (checkSequence forest target promote l items).Gives out ↔
    target.occurrence.admits items.length = true ∧
      List.Forall₂ (fun item w => (conformItem forest target promote l item).Gives w)
        items out := by
  rw [checkSequence, Logged.gives_ite, mapM_gives_iff]
  simp

/-- A checked sequence has the length that it had before and is one of the target. Its items of the
target's type are those that stood in their places, and without promotion all of them are. Another
check against the target, with or without promotion, hands it on as it is. -/
theorem checkSequence_conforms (h : (checkSequence forest target promote l items).Gives out) :
    out.length = items.length ∧ target.Admits forest out ∧
      (∀ (i : Nat) (item : Item), items[i]? = some item →
        item.isInstance forest target.item = true → out[i]? = some item) ∧
      (promote = false → out = items) ∧
      ∀ (again : Bool) (place : Option Location),
      checkSequence forest target again place out = pure out := by
  obtain ⟨hlength, hoccurrence, hinstances, -⟩ := checkSequence_gives h
  have hadmits : target.Admits forest out := ⟨hinstances, hoccurrence⟩
  refine ⟨hlength, hadmits, fun i item hitem hinstance => ?_, ?_,
    fun _ _ => hadmits.checkSequence_eq⟩
  · obtain ⟨w, hw, hconform⟩ : ∃ w, out[i]? = some w ∧
        (conformItem forest target promote l item).Gives w := by
      have hpairs := List.forall₂_iff_get.mp (checkSequence_iff.mp h).2
      obtain ⟨hi, rfl⟩ := List.getElem?_eq_some_iff.mp hitem
      exact ⟨out[i], List.getElem?_eq_getElem (hlength ▸ hi), hpairs.2 i hi (hlength ▸ hi)⟩
    rw [hw, (conformItem_gives hconform).2.2 hinstance]
  · rintro rfl
    exact (SeqType.checked_iff_admits.mp h).2

/-- A function that takes any function and answers with an integer is what the target asks for. One
that may answer with anything is given the target's signature. -/
theorem checkSequence_conforms_functions :
    let integers : SeqType := .one (.atomic .integer)
    let onIntegers : ItemType := .functionOf ⟨[integers], integers⟩
    let wanted : Signature := ⟨[.one onIntegers], .optional (.atomic .decimal)⟩
    let fitting : FunctionItem := .inline none ⟨[.one .function], integers⟩ [] default
    let loose : FunctionItem := .inline none ⟨[.one onIntegers], .anything⟩ [] default
    let target : SeqType := .many (.functionOf wanted)
    let given : List Item := [.function loose, .function fitting]
    let checked : List Item := [.function (.coerced none wanted loose), .function fitting]
    (checkSequence (.empty false) target true none given).Gives checked ∧
      target.Admits (.empty false) checked ∧
      checked[1]? = given[1]? ∧ checkSequence (.empty false) target false none checked =
        pure checked := by
  intro integers onIntegers wanted fitting loose target given checked
  have hchecked : (checkSequence (.empty false) target true none given).Gives checked := rfl
  obtain ⟨-, hadmits, hsame, -, hagain⟩ := checkSequence_conforms hchecked
  exact ⟨hchecked, hadmits, hsame 1 (.function fitting) rfl (by decide), hagain false none⟩

end TreeQuery
