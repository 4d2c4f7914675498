import TreeQuery.Eval.Call
import TreeQuery.Proofs.Typing.Evaluation
/-!
# Calls keep to signatures

A good function item gives a sequence of the result type of its signature: an inline function since
its body is annotated for its parameters and meets that type, a coerced one since its result is
checked. By induction on their depth all calls do (`callWithin_sound`).
-/

namespace TreeQuery

variable {env : Env} {l : Option Location}

theorem checkArguments_good : {args : List (List Item)} → {ts : List SeqType} →
    {args' : List (List Item)} →
    (checkArguments env l args ts).Gives args' → (∀ arg ∈ args, ∀ item ∈ arg, item.Good) →
    ∀ arg ∈ args', ∀ item ∈ arg, item.Good
  | [], _, _, h, _ | _ :: _, [], _, h, _ => by
    simp only [checkArguments, Logged.gives_pure] at h
    simp [← h]
  | arg :: args, t :: ts, _, h, hgood => by
    simp only [checkArguments, Logged.gives_bind, Logged.gives_pure] at h
    obtain ⟨first, hfirst, rest, hrest, rfl⟩ := h
    obtain ⟨harg, hargs⟩ := List.forall_mem_cons.mp hgood
    obtain ⟨-, -, -, hfirst, -⟩ := checkSequence_gives hfirst
    exact List.forall_mem_cons.mpr ⟨hfirst harg, checkArguments_good hrest hargs⟩

/-- The body of a function finds its parameters bound as it was compiled for them. -/
theorem Env.Sane.enter (henv : env.Sane) {Γ : List Variable} {params : List Variable}
    {args : List (List Item)} {locals : Bindings}
    (hlocals : (env.bindParams l params args).Gives locals) (hlength : args.length = params.length)
    (hgood : ∀ arg ∈ args, ∀ item ∈ arg, item.Good) :
    (env.enter locals).Fits (params.reverse ++ Γ) fun _ => False where
  globals := henv.globals
  locals name value hvalue := by
    obtain ⟨hitems, hfits⟩ := (Env.bindParams_gives hlocals hlength hgood name).2 value hvalue
    exact ⟨hitems, hfits Γ⟩
  focus item hitem := by cases hitem

theorem FunctionItem.callWith_fits {call : Caller} (hcall : call.Sound) (henv : env.Sane) :
    {f : FunctionItem} → f.Good →
    {args : List (List Item)} → (∀ arg ∈ args, ∀ item ∈ arg, item.Good) → {result : List Item} →
    (f.callWith (fun env e => e.value call env) env args l).Gives result →
    (StaticType.ofSeqType f.signature.result).Fits env.forest result True
  | .inline name signature params body, hf, args, hargs, result, h => by
    rw [FunctionItem.Good] at hf
    obtain ⟨hparams, ⟨Γ, hbody⟩, hmeets⟩ := hf
    simp only [FunctionItem.callWith, Logged.gives_ite, Logged.gives_locate, Logged.gives_failWith,
      and_false, false_or, Logged.gives_bind, ne_eq, Decidable.not_not] at h
    obtain ⟨harity, locals, hlocals, h⟩ := h
    have hlength : args.length = params.length := by
      rw [harity, FunctionItem.arity, FunctionItem.signature, Signature.arity, hparams,
        List.length_map]
    exact Expr.value_meets hcall (henv.enter hlocals hlength hargs) hbody hmeets h
  | .coerced name signature inner, hf, args, hargs, result, h => by
    rw [FunctionItem.Good] at hf
    simp only [FunctionItem.callWith, Logged.gives_ite, Logged.gives_locate, Logged.gives_failWith,
      and_false, false_or, Logged.gives_bind] at h
    obtain ⟨-, args', hargs', source, hsource, h⟩ := h
    exact checkSequence_fits h
      (FunctionItem.callWith_fits hcall henv hf (checkArguments_good hargs' hargs) hsource).good

theorem callWithin_sound : (depth : Nat) → (callWithin depth).Sound
  | 0, _, _, _, _, _, _, _, _, h => by simp [callWithin] at h
  | depth + 1, _, _, _, _, _, henv, hf, hargs, h =>
    FunctionItem.callWith_fits (callWithin_sound depth) henv hf hargs h

end TreeQuery
