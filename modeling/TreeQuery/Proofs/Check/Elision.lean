import TreeQuery.Proofs.Compile.Cases
import TreeQuery.Proofs.Eval.Parameters
import TreeQuery.Proofs.Typing.Conformance
import TreeQuery.Proofs.Typing.Preorder
/-!
# Checks of arguments that are left out

The check of an argument is left out where the parameter it is bound to is declared with a type
below the target's. What is bound stays the same if the check only lets through what the parameter
receives anyway (`Variable.receives_checked`): if neither promotes, or both promote items to the
same type. Where the parameter alone promotes, it receives values that the check refuses
(`Variable.receives_refused`).
-/

namespace TreeQuery

variable {forest : Forest} {target declared : SeqType} {promote promote' : Bool}
    {l l' : Option Location}

/-! ### Items -/

theorem conformItem_gives_iff {item w : Item} : (conformItem forest target promote l item).Gives w ↔
    if item.isInstance forest target.item = true then w = item
    else promote = true ∧ (item.promote forest target.item).Gives (some w) := by
  unfold conformItem
  split
  · rw [Logged.gives_pure, eq_comm]
  · cases promote with
    | false => simp
    | true =>
      simp only [if_true, Logged.gives_bind, true_and]
      constructor
      · rintro ⟨promoted, hpromoted, h⟩
        cases promoted with
        | none => simp at h
        | some w' =>
          obtain rfl := Logged.gives_pure.mp h
          exact hpromoted
      · exact fun h => ⟨some w, h, Logged.gives_pure.mpr rfl⟩

theorem Item.promote_target {item w : Item} {t : ItemType}
    (h : (item.promote forest t).Gives (some w)) :
    (∃ a, t = .atomic a ∧ ∀ f, item ≠ .function f) ∨
    ∃ s f, t = .functionOf s ∧ item = .function f := by
  cases item <;> cases t <;> simp [promote] at h ⊢

/-- An untyped value becomes a value of an atomic type by a cast, also of the types that it is
of. -/
theorem conformItem_untyped {a : AtomicType} {s : String} {w : Item}
    (hdeclared : declared.item = .atomic a) :
    (conformItem forest declared true l (.atomic (.untyped s))).Gives w ↔
      (Item.promote forest (.atomic (.untyped s)) (.atomic a)).Gives (some w) := by
  rw [conformItem_gives_iff, hdeclared]
  split
  · next h =>
    have hcast : castText s a = .ok (.untyped s) := by
      cases a <;> first | rfl | simp [Item.isInstance, ItemType.admits, ItemType.admitsAtomic,
        Atomic.type, AtomicType.instanceOf] at h
    simp [Item.promote, Atomic.promote, hcast, Except.map, eq_comm]
  · simp

/-- Of two types of which one lies below the other, the upper is the general one, or integers are
taken for decimals. -/
theorem AtomicType.eq_of_instanceOf {a b : AtomicType} (h : a.instanceOf b = true)
    (hgeneral : b ≠ .anyAtomic) (hdecimal : b ≠ .decimal) : a = b := by
  revert h hgeneral hdecimal
  cases a <;> cases b <;> decide

/-- Whether promotion to the lower of two types makes the same of an item as promotion to the upper
one first. It does not where integers are taken for decimals, which are no integers again, and
between signatures, since each wraps the function. -/
def ItemType.PromotesAs (lower upper : ItemType) : Prop :=
  lower = upper ∨ upper ≠ .atomic .decimal ∧ upper.isSigned = false

namespace Item

theorem promote_node_atomic {n : NodeId} {a : AtomicType} {w : Item} :
    (Item.promote forest (.node n) (.atomic a)).Gives (some w) ↔
    (Item.promote forest (.atomic (.untyped (forest.stringValue n))) (.atomic a)).Gives
      (some w) := by
  simp only [Item.promote, Atomic.promote, Logged.gives_lift]
  cases castText (forest.stringValue n) a <;> simp [Except.map]

/-- An item that is promoted to one of two different types promotes alike is a node, which becomes
an untyped value first. -/
theorem node_of_promote {item w : Item} {lower upper t : ItemType}
    (hsub : lower.instanceOf upper = true) (hdiffer : lower ≠ upper)
    (halike : lower.PromotesAs upper) (hitem : ¬item.isInstance forest upper = true)
    (ht : t = lower ∨ t = upper) (h : (item.promote forest t).Gives (some w)) :
    ∃ n a, item = .node n ∧ lower = .atomic a ∧ upper = .atomic .anyAtomic := by
  obtain ⟨hdecimal, hsigned⟩ := halike.resolve_left hdiffer
  rcases promote_target h with ⟨a, rfl, hfunction⟩ | ⟨s, f, rfl, rfl⟩
  · have below : ∃ a b, lower = .atomic a ∧ upper = .atomic b := by
      rcases ht with rfl | rfl
      · cases upper with
        | any => exact absurd isInstance_any hitem
        | atomic b => exact ⟨a, b, rfl, rfl⟩
        | _ => simp [ItemType.instanceOf, ItemType.relates, Variance.apply,
          ItemType.surfaceInstanceOf] at hsub
      · cases lower with
        | atomic b => exact ⟨b, a, rfl, rfl⟩
        | _ => simp [ItemType.instanceOf, ItemType.relates, Variance.apply,
          ItemType.surfaceInstanceOf] at hsub
    obtain ⟨a, b, rfl, rfl⟩ := below
    have hgeneral : b = .anyAtomic := Decidable.byContradiction fun hgeneral =>
      hdiffer (congrArg _ (AtomicType.eq_of_instanceOf hsub hgeneral fun hb =>
        hdecimal (congrArg _ hb)))
    subst hgeneral
    cases item with
    | node n => exact ⟨n, a, rfl, rfl, rfl⟩
    | atomic v =>
      exact absurd
        (by simp [isInstance, ItemType.admits, ItemType.admitsAtomic, AtomicType.instanceOf]) hitem
    | function f => exact absurd rfl (hfunction f)
  · -- a function has a signature, and of the types above signatures only they refuse it
    cases upper with
    | any | function => exact absurd rfl hitem
    | functionOf s => exact absurd hsigned (by simp [ItemType.isSigned])
    | _ =>
      rcases ht with rfl | ht
      · simp [ItemType.instanceOf, ItemType.relates, Variance.apply,
          ItemType.surfaceInstanceOf] at hsub
      · cases ht

/-- Of an item that the upper type refuses, promotion to it and a check of the lower one make what
promotion to the lower one makes. -/
theorem promote_twice {item w : Item} (hsub : declared.item.instanceOf target.item = true)
    (halike : declared.item.PromotesAs target.item)
    (hitem : ¬item.isInstance forest target.item = true) :
    (∃ x, (item.promote forest target.item).Gives (some x) ∧
      (conformItem forest declared true l x).Gives w) ↔
      (item.promote forest declared.item).Gives (some w) := by
  by_cases hsame : declared.item = target.item
  · constructor
    · rintro ⟨x, hx, hw⟩
      rw [conformItem_gives_iff, if_pos (hsame ▸ (promote_gives hx).1)] at hw
      exact hw ▸ hsame ▸ hx
    · intro h
      refine ⟨w, hsame ▸ h, ?_⟩
      rw [conformItem_gives_iff, if_pos (promote_gives h).1]
  · have untyped {n : NodeId} : (Item.promote forest (.node n) (.atomic .anyAtomic)).Gives
        (some (.atomic (.untyped (forest.stringValue n)))) := by
      simp [Item.promote, castText, Except.map]
    constructor
    · rintro ⟨x, hx, hw⟩
      obtain ⟨n, a, rfl, ha, hgeneral⟩ := node_of_promote hsub hsame halike hitem (.inr rfl) hx
      rw [hgeneral] at hx
      obtain rfl := Option.some.inj (untyped.unique hx)
      rwa [ha, promote_node_atomic, ← conformItem_untyped ha]
    · intro h
      obtain ⟨n, a, rfl, ha, hgeneral⟩ := node_of_promote hsub hsame halike hitem (.inl rfl) h
      rw [ha, promote_node_atomic, ← conformItem_untyped ha] at h
      exact ⟨_, hgeneral ▸ untyped, h⟩

end Item

/-! ### Sequences -/

theorem mapM_gives_twice {α : Type} {f g : α → Run α} : {as bs : List α} →
    (∀ a ∈ as, ∀ b, (∃ x, (f a).Gives x ∧ (g x).Gives b) ↔ (g a).Gives b) →
    ((∃ xs, (as.mapM f).Gives xs ∧ (xs.mapM g).Gives bs) ↔ (as.mapM g).Gives bs)
  | [], bs, _ => by simp
  | a :: as, bs, h => by
    rw [List.forall_mem_cons] at h
    have rest (bs : List α) : (∃ xs, (as.mapM f).Gives xs ∧ (xs.mapM g).Gives bs) ↔
        (as.mapM g).Gives bs :=
      mapM_gives_twice h.2
    simp only [List.mapM_cons, Logged.gives_bind, Logged.gives_pure]
    constructor
    · rintro ⟨_, ⟨x, hx, xs, hxs, rfl⟩, hbs⟩
      simp only [List.mapM_cons, Logged.gives_bind, Logged.gives_pure] at hbs
      obtain ⟨b, hb, bs, hbs, rfl⟩ := hbs
      exact ⟨b, (h.1 b).mp ⟨x, hx, hb⟩, bs, (rest bs).mp ⟨xs, hxs, hbs⟩, rfl⟩
    · rintro ⟨b, hb, bs, hbs, rfl⟩
      obtain ⟨x, hx, hb⟩ := (h.1 b).mpr hb
      obtain ⟨xs, hxs, hbs⟩ := (rest bs).mpr hbs
      refine ⟨x :: xs, ⟨x, hx, xs, hxs, rfl⟩, ?_⟩
      simp only [List.mapM_cons, Logged.gives_bind, Logged.gives_pure]
      exact ⟨b, hb, bs, hbs, rfl⟩

/-- A check in front of one of a lower type changes nothing if it promotes as that one does, or has
nothing to promote. -/
theorem checkSequence_twice {items results : List Item} (hsub : declared.instanceOf target = true)
    (hpromote : promote = true → promote' = true)
    (halike : (if promote then declared.item.PromotesAs target.item else promote' = false) ∨
      ∀ item ∈ items, item.isInstance forest target.item = true) :
    (∃ checked, (checkSequence forest target promote l items).Gives checked ∧
      (checkSequence forest declared promote' l' checked).Gives results) ↔
      (checkSequence forest declared promote' l' items).Gives results := by
  obtain ⟨hoccurrence, hitem⟩ := SeqType.instanceOf_iff.mp hsub
  cases hadmits : declared.occurrence.admits items.length with
  | false =>
    constructor
    · rintro ⟨checked, hchecked, hresults⟩
      have hlength := (checkSequence_gives hchecked).1
      simp [checkSequence, hlength, hadmits] at hresults
    · simp [checkSequence, hadmits]
  | true =>
    have htarget := Occurrence.admits_of_instanceOf hoccurrence hadmits
    have hitems : ∀ item ∈ items, ∀ w, (∃ x, (conformItem forest target promote l item).Gives x ∧
        (conformItem forest declared promote' l' x).Gives w) ↔
          (conformItem forest declared promote' l' item).Gives w := by
      intro item hmem w
      -- there is an item, so that the item types have to compare
      have hbelow : declared.item.instanceOf target.item = true :=
          hitem.resolve_left fun hzero => by
        rw [hzero] at hadmits
        have hempty : items = [] := by
          simpa [Occurrence.admits, Occurrence.min, Occurrence.max] using hadmits
        exact List.not_mem_nil (hempty ▸ hmem)
      have hchecked (x : Item) : (conformItem forest target promote l item).Gives x ↔ _ :=
        conformItem_gives_iff
      have hbound : (conformItem forest declared promote' l' item).Gives w ↔ _ :=
        conformItem_gives_iff
      simp only [hchecked]
      by_cases hinstance : item.isInstance forest target.item = true
      · simp [hinstance]
      · have hlower : ¬item.isInstance forest declared.item = true := fun h =>
          hinstance (Item.isInstance_of_instanceOf h hbelow)
        simp only [hbound, if_neg hinstance, if_neg hlower]
        have halike := halike.resolve_right fun hall => hinstance (hall item hmem)
        cases promote with
        | false =>
          obtain rfl : promote' = false := by simpa using halike
          simp
        | true =>
          obtain rfl := hpromote rfl
          simpa using Item.promote_twice hbelow (by simpa using halike) hinstance
    simp only [checkSequence, if_pos hadmits, if_pos htarget]
    rw [← mapM_gives_twice hitems]
    refine exists_congr fun checked => and_congr_right fun hchecked => ?_
    rw [(mapM_conformItem_gives hchecked).1, if_pos hadmits]

/-! ### Parameters -/

def Variable.PromotesAs (v : Variable) (target : SeqType) (promote : Bool) : Prop :=
  if promote then v.type.item.PromotesAs target.item else v.promotes = false

theorem Variable.receives_checked_iff {v : Variable} {env : Env} {arg value : List Item}
    (h : checkIsRedundant target promote v = true)
    (halike : v.PromotesAs target promote ∨
      ∀ item ∈ arg, item.isInstance env.forest target.item = true) :
    (∃ checked, (checkSequence env.forest target promote l arg).Gives checked ∧
      v.Receives env l' checked value) ↔
      v.Receives env l' arg value := by
  obtain ⟨name, declared, promotes⟩ := v
  simp only [checkIsRedundant, Bool.and_eq_true, Bool.or_eq_true, Bool.not_eq_true'] at h
  cases declared with
  | none =>
    have hany : SeqType.anything.Admits env.forest arg :=
      ⟨fun _ _ => Item.isInstance_any,
        by simp [SeqType.anything, SeqType.many, Occurrence.admits, Occurrence.min, Occurrence.max]⟩
    have hadmits : target.Admits env.forest arg := hany.of_instanceOf h.2
    constructor
    · rintro ⟨checked, hchecked, hvalue⟩
      exact hadmits.checked.unique hchecked ▸ hvalue
    · exact fun hvalue => ⟨arg, hadmits.checked, hvalue⟩
  | some declared =>
    refine checkSequence_twice h.2 (fun hpromote => ?_) ?_
    · simpa [hpromote, Variable.promotes] using h.1
    · simpa [Variable.PromotesAs, Variable.promotes, Variable.type] using halike

/-- A check that binding a parameter makes superfluous may be left out if the parameter promotes as
the check does, or if the check has nothing to promote or refuse. One that does not promote refuses
the values that are not of its target, whatever the parameter receives, and lets through all
others. -/
theorem Variable.receives_checked {v : Variable} {env : Env}
    (h : checkIsRedundant target promote v = true) (arg value : List Item) :
    ((v.PromotesAs target promote ∨ ∀ item ∈ arg, item.isInstance env.forest target.item = true) →
      ((∃ checked, (checkSequence env.forest target promote l arg).Gives checked ∧
        v.Receives env l' checked value) ↔
        v.Receives env l' arg value)) ∧
    (promote = false →
      ((∃ checked, (checkSequence env.forest target promote l arg).Gives checked ∧
        v.Receives env l' checked value) ↔
        target.Admits env.forest arg ∧ v.Receives env l' arg value)) := by
  refine ⟨receives_checked_iff h, ?_⟩
  rintro rfl
  simp only [SeqType.checked_iff_admits]
  constructor
  · rintro ⟨_, ⟨hadmits, rfl⟩, hvalue⟩
    exact ⟨hadmits, hvalue⟩
  · exact fun ⟨hadmits, hvalue⟩ => ⟨arg, ⟨hadmits, rfl⟩, hvalue⟩

/-- An untyped value is made an integer once, by the check or by the parameter. -/
theorem Variable.receives_checked_untyped :
    let v : Variable :=
    { name := .plain "a", declared := some (.one (.atomic .integer)), promote := true }
    let target : SeqType := .optional (.atomic .integer)
    let env : Env := .ofContext { forest := .empty false }
    let arg : List Item := [.atomic (.untyped " 1 ")]
    checkIsRedundant target true v = true ∧ v.PromotesAs target true ∧
      v.Receives env none arg [.atomic (.integer 1)] ∧
      ∃ checked, (checkSequence env.forest target true none arg).Gives checked ∧
        v.Receives env none checked [.atomic (.integer 1)] := by
  intro v target env arg
  have redundant : checkIsRedundant target true v = true := by decide
  have alike : v.PromotesAs target true := .inl rfl
  have received : v.Receives env none arg [.atomic (.integer 1)] := by
    show Logged.Gives _ _
    rfl
  exact ⟨redundant, alike, received,
    ((receives_checked redundant arg _).1 (.inl alike)).mpr received⟩

/-- An integer is made a double by the parameter, but the check that is left out refuses it. -/
theorem Variable.receives_refused :
    let v : Variable :=
    { name := .plain "a", declared := some (.one (.atomic .double)), promote := true }
    let target : SeqType := .one (.atomic .double)
    let env : Env := .ofContext { forest := .empty false }
    let arg : List Item := [.atomic (.integer 1)]
    checkIsRedundant target false v = true ∧
      v.Receives env none arg [.atomic (.double (Format.double.ofInt 1))] ∧
      ∀ value, ¬∃ checked, (checkSequence env.forest target false none arg).Gives checked ∧
        v.Receives env none checked value := by
  intro v target env arg
  refine ⟨by decide, rfl, ?_⟩
  rintro value ⟨checked, hchecked, -⟩
  have hadmits := (SeqType.checked_iff_admits.mp hchecked).1
  exact absurd (hadmits.item _ (List.mem_singleton_self _)) (by decide)

/-! ### Arguments -/

/-- Whether an argument, if it is a check, may be left to a parameter that makes the check
superfluous. -/
def Expr.SparesCheck (call : Caller) (env : Env) (arg : Expr) (v : Variable) : Prop :=
  ∀ operand target promote, arg.form = .check operand target promote → v.PromotesAs target promote ∨
    ∀ items, (operand.value call env).Gives items →
      ∀ item ∈ items, item.isInstance env.forest target.item = true

theorem bindParams_dropRedundantChecks {call : Caller} {env : Env} {l : Option Location} :
    {args : List Expr} → {params : List Variable} → {args' : List Expr} →
    (dropRedundantChecks args params).Gives args' →
    (∀ p ∈ args.zip params, p.1.SparesCheck call env p.2) → {values values' : List (List Item)} →
    (valuesOf call env args).Gives values → (valuesOf call env args').Gives values' →
    {locals : Bindings} →
    ((env.bindParams l params values').Gives locals ↔ (env.bindParams l params values).Gives locals)
  | [], params, args', h, _, values, values', hvalues, hvalues', locals => by
    simp only [dropRedundantChecks, Logged.gives_pure] at h
    subst h
    rw [hvalues.unique hvalues']
  | arg :: args, [], args', h, _, values, values', hvalues, hvalues', locals => by
    simp [Env.bindParams]
  | ⟨form, τ, place⟩ :: args, v :: vs, args', h, hspares, values, values', hvalues,
      hvalues', locals => by
    rw [List.zip_cons_cons, List.forall_mem_cons] at hspares
    obtain ⟨arg', rest, hrest, rfl, harg'⟩ := dropRedundantChecks_cons h
    simp only [valuesOf, Logged.gives_bind, Logged.gives_pure] at hvalues hvalues'
    obtain ⟨items, hitems, others, hothers, rfl⟩ := hvalues
    obtain ⟨items', hitems', others', hothers', rfl⟩ := hvalues'
    have hfirst (value : List Item) : v.Receives env l items' value ↔
        v.Receives env l items value := by
      obtain rfl | ⟨target, promote, hform, hredundant⟩ := harg'
      · rw [hitems.unique hitems']
      · subst hform
        simp only [Expr.value, Logged.gives_bind] at hitems
        obtain ⟨raw, hraw, hchecked⟩ := hitems
        obtain rfl := hraw.unique hitems'
        have hspare := (hspares.1 arg' target promote rfl).imp_right fun h => h _ hraw
        rw [← Variable.receives_checked_iff (l := place) hredundant hspare]
        constructor
        · rintro ⟨checked, h, hvalue⟩
          exact h.unique hchecked ▸ hvalue
        · exact fun hvalue => ⟨items, hchecked, hvalue⟩
    have hothers {locals : Bindings} : (env.bindParams l vs others').Gives locals ↔
        (env.bindParams l vs others).Gives locals :=
      bindParams_dropRedundantChecks hrest hspares.2 hothers hothers'
    simp only [Env.bindParams_cons_iff, hfirst, hothers]

end TreeQuery
