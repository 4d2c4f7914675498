import TreeQuery.Eval.Call
import TreeQuery.Proofs.Cursor.Items
/-!
# The place of an expression

The place of an expression shows in its failures and in nothing else. Moved to another place it is
evaluated to a cursor that resembles the old one: the same items and scores are delivered, and
failures where there were failures (`Expr.iterate_at?`).
-/

namespace TreeQuery

/-- A delivery of which a failure is known only to be one. -/
def Delivery.forget (d : Delivery) : Option Item × Option Number := (d.1.toOption, d.2)

/-- Whether cursors deliver the same items and scores, and failures in the same places. -/
def Cursor.Resembles (c c' : Cursor) : Prop :=
  ∀ scoring, (c.deliveries scoring).map Delivery.forget =
    (c'.deliveries scoring).map Delivery.forget

theorem delivered_forget : (ds : List Delivery) →
    delivered ds = (ds.map Delivery.forget).filterMap Prod.fst
  | [] => rfl
  | (.ok _, _) :: ds => by simp [Delivery.forget, Except.toOption, delivered_forget ds]
  | (.error _, _) :: ds => by simp [Delivery.forget, Except.toOption, delivered_forget ds]

theorem clean_forget : (ds : List Delivery) → (Clean ds ↔ ∀ d ∈ ds.map Delivery.forget, d.1.isSome)
  | [] => by simp
  | (.ok _, _) :: ds => by simp [Delivery.forget, Except.toOption, clean_forget ds]
  | (.error _, _) :: ds => by simp [Delivery.forget, Except.toOption]

namespace Cursor.Resembles

variable {c c' : Cursor} {scoring : Bool}

theorem refl (c : Cursor) : c.Resembles c := fun _ => rfl

theorem delivered (h : c.Resembles c') :
    delivered (c.deliveries scoring) = TreeQuery.delivered (c'.deliveries scoring) := by
  rw [delivered_forget, delivered_forget, h]

theorem clean (h : c.Resembles c') :
    Clean (c.deliveries scoring) ↔ Clean (c'.deliveries scoring) := by
  rw [clean_forget, clean_forget, h]

end Cursor.Resembles

/-! ### Checks -/

section Checks

variable {forest : Forest} {target : SeqType} {promote : Bool} (l l' : Option Location)

theorem conformItem_place {item item' : Item}
    (h : (conformItem forest target promote l item).Gives item') :
    (conformItem forest target promote l' item).Gives item' := by
  unfold conformItem at h ⊢
  split
  · next hinstance =>
    rwa [if_pos hinstance] at h
  · next hinstance =>
    rw [if_neg hinstance, Logged.gives_ite_bind] at h
    rw [Logged.gives_ite_bind]
    obtain ⟨promoted, hpromoted, h⟩ := h
    refine ⟨promoted, hpromoted, ?_⟩
    cases promoted with
    | none => simp at h
    | some promoted => exact h

theorem checkSequence_place {items items' : List Item}
    (h : (checkSequence forest target promote l items).Gives items') :
    (checkSequence forest target promote l' items).Gives items' := by
  have all : ∀ {items items' : List Item},
    (items.mapM (conformItem forest target promote l)).Gives items' →
      (items.mapM (conformItem forest target promote l')).Gives items' := by
    intro items
    induction items with
    | nil => exact id
    | cons item items ih =>
      intro items' h
      simp only [List.mapM_cons, Logged.gives_bind] at h ⊢
      obtain ⟨first, hfirst, rest, hrest, h⟩ := h
      exact ⟨first, conformItem_place l l' hfirst, rest, ih hrest, h⟩
  unfold checkSequence at h ⊢
  split
  · next hadmits =>
    rw [if_pos hadmits] at h
    exact all h
  · next hadmits =>
    rw [if_neg hadmits] at h
    simp at h

theorem TypeCheck.next_place {count : Nat} {item item' : Item}
    (h : (TypeCheck.next ⟨target, promote, l⟩ forest count item).Gives item') :
    (TypeCheck.next ⟨target, promote, l'⟩ forest count item).Gives item' := by
  simp only [next, Logged.gives_bind, Logged.gives_locate] at h ⊢
  obtain ⟨checked, hchecked, h⟩ := h
  refine ⟨checked, conformItem_place l l' hchecked, ?_⟩
  split at h
  · simp only [Logged.gives_ite, Logged.gives_fail, and_false, false_or] at h ⊢
    exact h
  · exact h

theorem Reply.check_place (scoring : Bool) : (r : Reply) → (count : Nat) →
    ((r.check ⟨target, promote, l⟩ forest count).deliveries scoring).map Delivery.forget =
      ((r.check ⟨target, promote, l'⟩ forest count).deliveries scoring).map Delivery.forget
  | .ended log hint, count => by
    simp only [Reply.check, TypeCheck.finish]
    by_cases hfew : count < target.occurrence.min
    · simp only [if_pos hfew]
      rfl
    · simp only [if_neg hfew]
  | .yielded log (.error e) score rest, count => rfl
  | .yielded log (.ok item) score (.mk hint pull), count => by
    have ih := Reply.check_place scoring (pull scoring) (count + 1)
    simp only [Reply.check]
    cases hnext : (TypeCheck.next ⟨target, promote, l⟩ forest count item).outcome with
    | error e =>
      cases hnext' : (TypeCheck.next ⟨target, promote, l'⟩ forest count item).outcome with
      | error e' => rfl
      | ok item' =>
        have h : (TypeCheck.next ⟨target, promote, l⟩ forest count item).outcome = _ :=
          TypeCheck.next_place l' l hnext'
        rw [hnext] at h
        cases h
    | ok item' =>
      have h : (TypeCheck.next ⟨target, promote, l'⟩ forest count item).outcome = _ :=
        TypeCheck.next_place l l' hnext
      simp only [h, Reply.deliveries, Cursor.check, Cursor.deliveries, List.map_cons, ih]

theorem Cursor.check_place (c : Cursor) :
    (c.check ⟨target, promote, l⟩ forest 0).Resembles (c.check ⟨target, promote, l'⟩ forest 0) := by
  intro scoring
  obtain ⟨hint, pull⟩ := c
  exact Reply.check_place l l' scoring (pull scoring) 0

end Checks

/-! ### Calls -/

/-- A caller for which the place of the call shows only in failures. -/
def Caller.IgnoresPlace (call : Caller) : Prop :=
  ∀ env f args l l' items, (call env f args l).Gives items → (call env f args l').Gives items

section Calls

variable {env : Env} (l l' : Option Location)

theorem Env.bindParams_place : {vs : List Variable} → {args : List (List Item)} →
    {locals : Bindings} →
    (env.bindParams l vs args).Gives locals → (env.bindParams l' vs args).Gives locals
  | [], _, _, h | _ :: _, [], _, h => by simpa only [bindParams] using h
  | v :: vs, arg :: args, locals, h => by
    unfold bindParams at h ⊢
    split at h
    · next declared hdeclared =>
      simp only [Logged.gives_bind] at h ⊢
      obtain ⟨value, hvalue, rest, hrest, h⟩ := h
      exact ⟨value, checkSequence_place l l' hvalue, rest, bindParams_place hrest, h⟩
    · simp only [Logged.gives_bind] at h ⊢
      obtain ⟨value, hvalue, rest, hrest, h⟩ := h
      exact ⟨value, hvalue, rest, bindParams_place hrest, h⟩

theorem checkArguments_place : {args : List (List Item)} → {ts : List SeqType} →
    {args' : List (List Item)} →
    (checkArguments env l args ts).Gives args' → (checkArguments env l' args ts).Gives args'
  | [], _, _, h | _ :: _, [], _, h => by simpa only [checkArguments] using h
  | arg :: args, t :: ts, args', h => by
    simp only [checkArguments, Logged.gives_bind] at h ⊢
    obtain ⟨value, hvalue, rest, hrest, h⟩ := h
    exact ⟨value, checkSequence_place l l' hvalue, rest, checkArguments_place hrest, h⟩

theorem FunctionItem.callWith_place {body : Env → Expr → Run (List Item)} :
    {f : FunctionItem} → {args : List (List Item)} →
    {items : List Item} → (f.callWith body env args l).Gives items →
    (f.callWith body env args l').Gives items
  | .inline .., args, items, h => by
    simp only [callWith, Logged.gives_ite, Logged.gives_locate, Logged.gives_failWith, and_false,
      false_or, Logged.gives_bind] at h ⊢
    obtain ⟨harity, locals, hlocals, h⟩ := h
    exact ⟨harity, locals, Env.bindParams_place l l' hlocals, h⟩
  | .coerced .., args, items, h => by
    simp only [callWith, Logged.gives_ite, Logged.gives_locate, Logged.gives_failWith, and_false,
      false_or, Logged.gives_bind] at h ⊢
    obtain ⟨harity, args', hargs, result, hresult, h⟩ := h
    exact ⟨harity, args', checkArguments_place l l' hargs, result, callWith_place hresult,
      checkSequence_place l l' h⟩

end Calls

theorem callWithin_ignoresPlace : (depth : Nat) → (callWithin depth).IgnoresPlace
  | 0 => fun _ _ _ _ _ _ h => absurd h Logged.gives_fail
  | _ + 1 => fun _ _ _ l l' _ h => FunctionItem.callWith_place l l' h

/-! ### Expressions -/

section Expressions

variable {call : Caller} (hcall : call.IgnoresPlace) {env : Env}

include hcall

theorem Form.iterate_place {form : Form} {c : Cursor} (l l' : Option Location)
    (h : (form.iterate call env l).Gives c) :
    ∃ c', (form.iterate call env l').Gives c' ∧ c.Resembles c' := by
  have alike (h' : (form.iterate call env l').Gives c) : ∃ c', (form.iterate call env l').Gives c' ∧
      c.Resembles c' :=
    ⟨c, h', .refl c⟩
  cases form
  -- the forms that use the place: for errors of values that do not conform, and in calls
  case reference v =>
    refine alike ?_
    simp only [iterate, Logged.gives_map] at h ⊢
    obtain ⟨value, hvalue, rfl⟩ := h
    refine ⟨value, ?_, rfl⟩
    unfold Env.lookup at hvalue ⊢
    split
    · next heq => simpa only [heq] using hvalue
    · next hnone =>
      rw [hnone] at hvalue
      dsimp only at hvalue
      split
      · next hnone' =>
        rw [hnone'] at hvalue
        simp at hvalue
      · next value' heq =>
        rw [heq] at hvalue
        dsimp only at hvalue
        split
        · next declared hdeclared =>
          rw [hdeclared] at hvalue
          exact checkSequence_place l l' hvalue
        · next hdeclared =>
          rw [hdeclared] at hvalue
          exact hvalue
  case apply f args =>
    refine alike ?_
    simp only [iterate, Logged.gives_bind] at h ⊢
    obtain ⟨fs, hfs, h⟩ := h
    refine ⟨fs, hfs, ?_⟩
    split at h
    · simp only [Logged.gives_bind, Logged.gives_map] at h ⊢
      obtain ⟨values, hvalues, items, hitems, rfl⟩ := h
      exact ⟨values, hvalues, items, hcall _ _ _ l l' _ hitems, rfl⟩
    · simp at h
  case check operand target promote =>
    simp only [iterate, Logged.gives_bind, Logged.gives_pure] at h ⊢
    obtain ⟨source, hsource, rfl⟩ := h
    exact ⟨_, ⟨source, hsource, rfl⟩, source.check_place l l'⟩
  case map operands =>
    refine alike ?_
    cases operands <;> simpa only [iterate] using h
  all_goals exact alike (by simpa only [iterate] using h)

/-- An expression at another place is evaluated to a cursor that resembles that of the expression
itself. -/
theorem Expr.iterate_at? {e : Expr} {l : Option Location} {c : Cursor}
    (h : ((e.at? l).iterate call env).Gives c) :
    ∃ c', (e.iterate call env).Gives c' ∧ c.Resembles c' := by
  obtain ⟨form, type, place⟩ := e
  simp only [at?, iterate, Logged.gives_locate] at h ⊢
  exact Form.iterate_place hcall l place h

end Expressions

end TreeQuery
