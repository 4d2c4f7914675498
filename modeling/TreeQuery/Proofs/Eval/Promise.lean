import TreeQuery.Eval.Call
import TreeQuery.Proofs.Cursor.Promise
import TreeQuery.Proofs.Demand
import TreeQuery.Proofs.Eval.Focus
/-!
# Evaluations that keep a promise

Most forms only combine what their operands evaluate to. Whether evaluation keeps a promise is
decided at the others: references, functions, deferred failures, traces and calls. A `Policy`
collects what is needed there, of the nodes of an expression, of environments and of the caller;
under it evaluation keeps the promise (`Expr.iterate_keeps`, `Expr.value_keeps`,
`Expr.truth_keeps`), by induction on the expression.
-/

namespace TreeQuery

abbrev Promise.items (P : Promise) (items : List Item) : Prop := ∀ item ∈ items, P.item item

/-- What makes evaluation keep a promise, for expressions with the nodes that `D` demands in state
`a` and environments with `A`. -/
structure Policy {α : Type} (P : Promise) (call : Caller) (D : Demand α) (a : α) (A : Env → Prop) :
    Prop where
  lawful : P.Lawful
  focus : ∀ {env item}, A env → env.focus.item = some item → P.item item
  absent : ∀ {env}, A env → env.focus.item = none → P.failure (.of .contextAbsent)
  focusOn : ∀ {env item}, A env → P.item item →
    ∀ size scoring n, A (env.focusOn (some size) scoring n item)
  /-- Where items stream, their number is not known. That is no matter, or nothing that streams
  looks at it: operands and predicates do not, if calls take no notice of the focus. -/
  streamed : (∀ {env item}, A env → P.item item →
    ∀ scoring n, A (env.focusOn none scoring n item)) ∨ call.IgnoresFocus
  size : ∀ {env}, A env → env.contextSize.Keeps P fun _ => True
  matcher : ∀ {env m}, A env → env.matcher = some m →
    ∀ text words, Raises (fun e => P.failure (.error e)) (m text words)
  function : ∀ {f τ}, D.node a (.function f) τ → f.Satisfies D a → P.item (.function f)
  failure : ∀ {e τ}, D.node a (.failure e) τ → P.failure (.error e)
  reference : ∀ {env v τ}, A env → D.node a (.reference v) τ → ∀ l, (env.lookup v l).Keeps P P.items
  trace : ∀ {args τ}, D.node a (.call .trace args) τ → ∀ label text, P.entry { label, text }
  apply : ∀ {env f es τ g args}, A env → D.node a (.apply f es) τ → P.item (.function g) →
    (∀ arg ∈ args, P.items arg) →
    ∀ l, (call env g args l).Keeps P P.items

section Policy

variable {α : Type} {P : Promise} {call : Caller} {D : Demand α} {a : α} {A : Env → Prop}
  (hpolicy : Policy P call D a A)

include hpolicy

/-! ### Operations -/

theorem Policy.keeps_ofBool (b : Bool) : (Cursor.ofBool b).Keeps P :=
  Cursor.keeps_single (hpolicy.lawful.atomic _)

theorem Policy.keeps_ofNat (n : Nat) : (Cursor.ofNat n).Keeps P :=
  Cursor.keeps_single (hpolicy.lawful.atomic _)

theorem Policy.contextItem {env : Env} (henv : A env) : env.contextItem.Keeps P P.item := by
  unfold Env.contextItem
  split
  · next item hitem => exact .pure (hpolicy.focus henv hitem)
  · next hitem => exact .fail (hpolicy.absent henv hitem)

theorem Policy.contextPosition {env : Env} (henv : A env) :
    env.contextPosition.Keeps P fun _ => True := by
  unfold Env.contextPosition
  split
  · exact .pure trivial
  · next hitem => exact .fail (hpolicy.absent henv hitem)

theorem Policy.atomizeAll (forest : Forest) (items : List Item) :
    (Logged.lift (atomizeAll forest items) : Run (List Atomic)).Keeps P fun _ => True :=
  hpolicy.lawful.lift (atomizeAll_ordinary forest items) fun _ _ => trivial

theorem Policy.texts (env : Env) (items : List Item) : (env.texts items).Keeps P fun _ => True :=
  (hpolicy.atomizeAll env.forest items).bind fun _ _ => .pure trivial

theorem Policy.search {env : Env} (henv : A env) {query : Run (List Item)} {input : Run Cursor}
    (hquery : query.Keeps P P.items) (hinput : input.Keeps P (Cursor.Keeps P)) :
    (env.search query input).Keeps P fun _ => True := by
  have hmatcher : env.requireMatcher.Keeps P fun m => env.matcher = some m := by
    unfold Env.requireMatcher
    split
    · next m hm => exact .pure hm
    · exact .fail (hpolicy.lawful.cause trivial)
  refine hmatcher.bind fun m hm => hquery.bind fun items _ =>
    (hpolicy.texts env items).bind fun words _ => ?_
  refine hinput.bind fun c hc => Cursor.fold_keeps hc trivial fun best item _ _ _ => ?_
  refine (hpolicy.lawful.lift (Item.atomize_ordinary _ _) fun _ _ => trivial).bind
    (Q := fun _ => True) fun v _ => ?_
  exact (Logged.Ensures.lift (fun _ _ => trivial) (hpolicy.matcher henv hm v.lexical words)).bind
    (Q := fun _ => True)
    fun found _ => .pure trivial

theorem Policy.documentOrder (forest : Forest) {items : List Item} (h : P.items items) :
    (Logged.ofOutcome (documentOrder forest items) : Run (List Item)).Keeps P P.items := by
  refine hpolicy.lawful.ofOutcome (fun f => documentOrder_fails) fun ordered hordered => ?_
  unfold TreeQuery.documentOrder at hordered
  dsimp only at hordered
  split at hordered
  · exact Except.ok.inj hordered ▸ h
  · split at hordered
    · cases hordered
    · cases hsorted : forest.sortNodes (items.filterMap Item.node?) with
      | error e => simp [hsorted, Except.map] at hordered
      | ok nodes =>
        obtain rfl : nodes.map Item.node = ordered := by simpa [hsorted, Except.map] using hordered
        intro item hitem
        obtain ⟨n, -, rfl⟩ := List.mem_map.mp hitem
        exact hpolicy.lawful.node n

theorem Policy.compareAtomics (style : CompareStyle) (op : CompareOp) (left right : List Atomic) :
    (Logged.lift (compareAtomics style op left right) : Run (List Item)).Keeps P P.items := by
  have map_boolean {x : Except Error Bool} {items : List Item}
    (h : x.map (fun b => [Item.atomic (.boolean b)]) = .ok items) :
      P.items items := by
    cases x with
    | error e => cases h
    | ok b =>
      obtain rfl : [Item.atomic (.boolean b)] = items := Except.ok.inj h
      exact List.forall_mem_singleton.mpr (hpolicy.lawful.atomic _)
  refine hpolicy.lawful.lift (compareAtomics_ordinary style op left right) fun items hitems => ?_
  unfold TreeQuery.compareAtomics at hitems
  split at hitems
  · exact map_boolean hitems
  · split at hitems
    · exact Except.ok.inj hitems ▸ List.forall_mem_nil _
    · exact Except.ok.inj hitems ▸ List.forall_mem_nil _
    · exact map_boolean hitems
    · cases hitems

/-- What keeps a promise where the number of items is known, and does not ask for it, keeps it where
items stream. -/
theorem Policy.keeps_streamed {β : Type} {Q : β → Prop} {env : Env} (henv : A env)
    {run : Env → Run β} (hrun : ∀ env, A env → (run env).Keeps P Q)
    (hunsized : call.IgnoresFocus → ∀ env : Env, ∀ size, run (env.sized size) = run env)
    {item : Item} (hitem : P.item item) (scoring : Bool) (n : Nat) :
    (run (env.focusOn none scoring n item)).Keeps P Q := by
  rcases hpolicy.streamed with hstreamed | hcall
  · exact hrun _ (hstreamed henv hitem scoring n)
  · have hsame : run (env.focusOn none scoring n item) = run
        (env.focusOn (some 0) scoring n item) :=
      hunsized hcall (env.focusOn (some 0) scoring n item) none
    exact hsame ▸ hrun _ (hpolicy.focusOn henv hitem 0 scoring n)

theorem Policy.follow {env : Env} (henv : A env) {operand : Expr} {nodesOnly : Bool}
    {iterate : Env → Run Cursor} {c : Cursor}
    (hiterate : ∀ env, A env → (iterate env).Keeps P (Cursor.Keeps P))
    (hunsized : call.IgnoresFocus → operand.dependsOn .position = false →
      ∀ env : Env, ∀ size, iterate (env.sized size) = iterate env) (hc : c.Keeps P) :
    (c.follow env operand nodesOnly iterate).Keeps P (Cursor.Keeps P) := by
  have hlink {size : Option Nat} (hstart : ∀ scoring n item, P.item item →
      (iterate (env.focusOn size scoring n item)).Keeps P (Cursor.Keeps P)) : Link.Keeps P
      ⟨if nodesOnly then admitNode operand.location else fun _ => .ok (),
        fun scoring n item => iterate (env.focusOn size scoring n item)⟩ := by
    refine ⟨?_, hstart⟩
    intro item e he
    cases nodesOnly with
    | false => cases he
    | true =>
      simp only [if_true, admitNode] at he
      split at he
      · cases he
      · exact Except.error.inj he ▸ hpolicy.lawful.placeless _ _ (hpolicy.lawful.cause trivial)
  unfold Cursor.follow
  dsimp only
  split
  · refine (Cursor.drain_keeps hpolicy.lawful hc).bind fun items hitems => .pure ?_
    exact (Cursor.keeps_ofList hitems).chain
      (hlink fun scoring n item hitem => hiterate _ (hpolicy.focusOn henv hitem _ scoring n)) 0
  · next hposition =>
    refine .pure (hc.chain (hlink fun scoring n item hitem => ?_) 0)
    exact hpolicy.keeps_streamed henv hiterate
      (fun hcall => hunsized hcall (by simpa using hposition)) hitem scoring n

theorem Policy.filterBy {env : Env} (henv : A env) {predicates : List Expr}
    {mean : Env → Run (Option Number)} {inTurn : List (Item × Number) → Run (List (Item × Number))}
    {c : Cursor} (hmean : ∀ env, A env → (mean env).Keeps P fun _ => True)
    (hunsized : call.IgnoresFocus → (∀ e ∈ predicates, e.IsUnsized) →
      ∀ env : Env, ∀ size, mean (env.sized size) = mean env)
    (hinTurn : ∀ items, (∀ entry ∈ items, P.item entry.1) → (inTurn items).Keeps P fun kept =>
      ∀ entry ∈ kept, P.item entry.1) (hc : c.Keeps P) :
    (c.filterBy env predicates mean inTurn).Keeps P (Cursor.Keeps P) := by
  have hjudge (h : ∀ e ∈ predicates, e.IsUnsized) : Judgement.Keeps P fun scoring n item =>
      mean (env.focusOn none scoring n item) :=
    fun scoring n item hitem => hpolicy.keeps_streamed henv hmean
      (fun hcall => hunsized hcall h) hitem scoring n
  unfold Cursor.filterBy
  dsimp only
  split
  · exact .pure hc
  · split
    · next hpositional =>
      exact .pure (hc.select (hjudge (isUnsized_of_not_positional (by simpa using hpositional))) 0)
    · split
      · next w hw => exact .pure (hc.window (hjudge (isUnsized_of_leadingWindow? hw)) 0)
      · refine (Cursor.drain_keeps hpolicy.lawful hc).bind fun items hitems => ?_
        refine (hinTurn _ fun entry hentry => ?_).bind fun kept hkept =>
          .pure (Cursor.keeps_ofScored ?_)
        · obtain ⟨item, hitem, rfl⟩ := List.mem_map.mp hentry
          exact hitems item hitem
        · intro entry hentry
          obtain ⟨scored, hscored, rfl⟩ := List.mem_map.mp hentry
          exact hkept scored hscored

omit hpolicy in
theorem keepScored_keeps {judge : Nat → Nat → Item → Run (Option Number)}
    (hjudge : ∀ size n item, P.item item → (judge size n item).Keeps P fun _ => True) (size : Nat) :
    (items : List (Item × Number)) → (n : Nat) → (∀ entry ∈ items, P.item entry.1) →
      (keepScored judge size n items).Keeps P fun kept => ∀ entry ∈ kept, P.item entry.1
  | [], _, _ => .pure (by simp)
  | (item, total) :: rest, n, h => by
    have hitem := h _ List.mem_cons_self
    rw [keepScored.eq_def]
    refine (hjudge size (n + 1) item hitem).bind fun verdict _ => ?_
    refine (keepScored_keeps hjudge size rest (n + 1) fun e he =>
      h e (List.mem_cons_of_mem _ he)).bind fun kept hkept => ?_
    cases verdict with
    | none => exact .pure hkept
    | some score => exact .pure (List.forall_mem_cons.mpr ⟨hitem, hkept⟩)

/-! ### Expressions -/

omit hpolicy

mutual

theorem Expr.iterate_keeps (hpolicy : Policy P call D a A) :
    (e : Expr) → {env : Env} → A env → e.Satisfies D a →
    (e.iterate call env).Keeps P (Cursor.Keeps P)
  | ⟨form, _, l⟩, env, henv, he => by
    rw [Expr.iterate]
    exact (Form.iterate_keeps hpolicy form l henv he.1 he.2).locate hpolicy.lawful.placeless l

theorem Expr.value_keeps (hpolicy : Policy P call D a A) :
    (e : Expr) → {env : Env} → A env → e.Satisfies D a → (e.value call env).Keeps P P.items
  | ⟨form, τ, l⟩, env, henv, he => by
    have hiterate :=
      (Form.iterate_keeps hpolicy form l henv he.1 he.2).locate hpolicy.lawful.placeless l
    cases form with
    | check operand target promote =>
      rw [Expr.value]
      exact (Expr.value_keeps hpolicy operand henv he.2).bind fun items =>
        checkSequence_keeps hpolicy.lawful
    | _ =>
      rw [Expr.value_of_not_check]
      · exact hiterate.bind fun c => Cursor.drain_keeps hpolicy.lawful
      · nofun

theorem Expr.truth_keeps (hpolicy : Policy P call D a A) :
    (e : Expr) → {env : Env} → A env → e.Satisfies D a → (e.truth call env).Keeps P fun _ => True
  | ⟨form, _, l⟩, env, henv, he => by
    rw [Expr.truth]
    exact ((Form.iterate_keeps hpolicy form l henv he.1 he.2).locate hpolicy.lawful.placeless
        l).bind fun c =>
      Cursor.truth_keeps hpolicy.lawful l

theorem Expr.test_keeps (hpolicy : Policy P call D a A) :
    (e : Expr) → {env : Env} → A env → e.Satisfies D a → (e.test call env).Keeps P fun _ => True
  | ⟨form, τ, l⟩, env, henv, he => by
    have hiterate :=
      (Form.iterate_keeps hpolicy form l henv he.1 he.2).locate hpolicy.lawful.placeless l
    cases form with
    | position w =>
      rw [Expr.test]
      exact .pure trivial
    | containsText input query =>
      have hquery := Expr.value_keeps hpolicy query henv he.2.2
      have hinput := Expr.iterate_keeps hpolicy input henv he.2.1
      rw [Expr.test]
      exact ((hpolicy.search henv hquery hinput).locate hpolicy.lawful.placeless l).bind
        fun m _ => .pure trivial
    | _ =>
      rw [Expr.test_of_other]
      · exact hiterate.bind fun c hc =>
          (Cursor.predicateTruth_keeps hpolicy.lawful l _ hc).bind fun _ _ => .pure trivial
      · nofun
      · nofun

theorem Form.iterate_keeps (hpolicy : Policy P call D a A) :
    (form : Form) → (l : Option Location) → {env : Env} → {τ : StaticType} → A env →
    D.node a form τ → form.Satisfies D a → (form.iterate call env l).Keeps P (Cursor.Keeps P)
  | .literal values, l, env, τ, henv, hnode, h => by
    refine .pure (Cursor.keeps_ofList fun item hitem => ?_)
    obtain ⟨v, -, rfl⟩ := List.mem_map.mp hitem
    exact hpolicy.lawful.atomic v
  | .function f, l, env, τ, henv, hnode, h => .pure (Cursor.keeps_single (hpolicy.function hnode h))
  | .contextItem, l, env, τ, henv, hnode, h =>
    .map ((hpolicy.contextItem henv).mono fun item => Cursor.keeps_single)
  | .position w, l, env, τ, henv, hnode, h => .pure (hpolicy.keeps_ofBool _)
  | .conjunction operands, l, env, τ, henv, hnode, h =>
    .map ((allTrue_keeps hpolicy operands henv h).mono fun b _ => hpolicy.keeps_ofBool b)
  | .disjunction operands, l, env, τ, henv, hnode, h =>
    .map ((anyTrue_keeps hpolicy operands henv h).mono fun b _ => hpolicy.keeps_ofBool b)
  | .comparison style op left right, l, env, τ, henv, hnode, h => by
    refine (Expr.value_keeps hpolicy left henv h.1).bind fun items _ =>
      (hpolicy.atomizeAll env.forest items).bind fun lvs _ => ?_
    refine (Expr.value_keeps hpolicy right henv h.2).bind fun items _ =>
      (hpolicy.atomizeAll env.forest items).bind fun rvs _ => ?_
    exact .map ((hpolicy.compareAtomics style op lvs rvs).mono fun items => Cursor.keeps_ofList)
  | .call f args, l, env, τ, henv, hnode, h => by
    rw [Form.iterate]
    exact callBuiltin_keeps hpolicy f args henv hnode h
  | .step axis test predicates, l, env, τ, henv, hnode, h => by
    rw [Form.iterate]
    refine (hpolicy.contextItem henv).bind fun item _ => ?_
    cases item with
    | atomic v => exact .fail (hpolicy.lawful.cause trivial)
    | function f => exact .fail (hpolicy.lawful.cause trivial)
    | node n =>
      have hnodes : P.items
          (((env.forest.axisNodes n axis).filter (test.passes env.forest)).map Item.node) := by
        intro item hitem
        obtain ⟨m, -, rfl⟩ := List.mem_map.mp hitem
        exact hpolicy.lawful.node m
      refine (hpolicy.filterBy henv (fun env henv => meanTest_keeps hpolicy predicates _ _ henv h)
        (fun hcall hes env size => meanTest_sized hcall size _ predicates hes _)
        (fun items hitems => filterInTurn_keeps hpolicy predicates items henv h hitems)
        (Cursor.keeps_ofList hnodes)).bind
        fun kept hkept => ?_
      split
      · refine (Cursor.drainScored_keeps hpolicy.lawful hkept).bind fun scored hscored =>
          .pure (Cursor.keeps_ofScored ?_)
        intro entry hentry
        obtain ⟨e, he, rfl⟩ := List.mem_map.mp hentry
        exact hscored e (List.mem_reverse.mp he)
      · exact .pure hkept
  | .path root steps, l, env, τ, henv, hnode, h => by
    rw [Form.iterate]
    exact (Expr.iterate_keeps hpolicy root henv h.1).bind fun c hc =>
      followSteps_keeps hpolicy steps _ henv h.2 hc
  | .relativePath steps, l, env, τ, henv, hnode, h => by
    rw [Form.iterate]
    exact (hpolicy.contextItem henv).bind fun item hitem =>
      followSteps_keeps hpolicy steps _ henv h (Cursor.keeps_single hitem)
  | .map [], l, env, τ, henv, hnode, h => .fail (hpolicy.lawful.cause trivial)
  | .map (first :: rest), l, env, τ, henv, hnode, h => by
    rw [Form.iterate]
    exact (Expr.iterate_keeps hpolicy first henv h.1).bind fun c hc =>
      followMaps_keeps hpolicy rest henv h.2 hc
  | .filter root predicates, l, env, τ, henv, hnode, h => by
    rw [Form.iterate]
    exact (Expr.iterate_keeps hpolicy root henv h.1).bind fun c hc =>
      hpolicy.filterBy henv (fun env henv => meanTest_keeps hpolicy predicates _ _ henv h.2)
        (fun hcall hes env size => meanTest_sized hcall size _ predicates hes _)
        (fun items hitems => filterInTurn_keeps hpolicy predicates items henv h.2 hitems) hc
  | .containsText input query, l, env, τ, henv, hnode, h => by
    rw [Form.iterate]
    exact (hpolicy.search henv (Expr.value_keeps hpolicy query henv h.2)
        (Expr.iterate_keeps hpolicy input henv h.1)).bind fun m _ =>
      .pure (hpolicy.keeps_ofBool _)
  | .conditional condition yes no, l, env, τ, henv, hnode, h => by
    rw [Form.iterate]
    refine (Expr.truth_keeps hpolicy condition henv h.1).bind fun b _ => ?_
    cases b with
    | true => exact Expr.iterate_keeps hpolicy yes henv h.2.1
    | false => exact Expr.iterate_keeps hpolicy no henv h.2.2
  | .reference v, l, env, τ, henv, hnode, h =>
    .map ((hpolicy.reference henv hnode l).mono fun items => Cursor.keeps_ofList)
  | .apply f args, l, env, τ, henv, hnode, h => by
    rw [Form.iterate]
    refine (Expr.value_keeps hpolicy f henv h.1).bind fun items hitems => ?_
    split
    · next g =>
      have hg := hitems _ List.mem_cons_self
      refine (valuesOf_keeps hpolicy args henv h.2).bind fun values hvalues => ?_
      exact .map ((hpolicy.apply henv hnode hg hvalues l).mono fun items => Cursor.keeps_ofList)
    · exact .fail (hpolicy.lawful.cause trivial)
  | .check operand target promote, l, env, τ, henv, hnode, h => by
    rw [Form.iterate]
    exact (Expr.iterate_keeps hpolicy operand henv h).bind fun c hc =>
      .pure (Cursor.Keeps.check hpolicy.lawful 0 hc)
  | .failure e, l, env, τ, henv, hnode, h => .fail (hpolicy.failure hnode)

theorem callBuiltin_keeps (hpolicy : Policy P call D a A) (f : Builtin) :
    (args : List Expr) → {env : Env} → {τ : StaticType} → A env →
    D.node a (.call f args) τ → AllSatisfy D a args →
    (callBuiltin call env f args).Keeps P (Cursor.Keeps P)
  | [], env, τ, henv, hnode, h => by
    cases f with
    | position => exact .map ((hpolicy.contextPosition henv).mono fun n _ => hpolicy.keeps_ofNat n)
    | last => exact .map ((hpolicy.size henv).mono fun n _ => hpolicy.keeps_ofNat n)
    | _ => exact .fail (hpolicy.lawful.cause trivial)
  | arg :: args, env, τ, henv, hnode, h => by
    cases f with
    | boolean =>
      exact .map ((Expr.truth_keeps hpolicy arg henv h.1).mono fun b _ => hpolicy.keeps_ofBool b)
    | not => exact (Expr.truth_keeps hpolicy arg henv h.1).bind fun b _ => .pure (hpolicy.keeps_ofBool _)
    | «exists» | empty =>
      exact (Expr.iterate_keeps hpolicy arg henv h.1).bind fun c hc =>
          (Cursor.first?_keeps hc).bind fun _ _ =>
        .pure (hpolicy.keeps_ofBool _)
    | count =>
      exact (Expr.iterate_keeps hpolicy arg henv h.1).bind fun c hc =>
          (Cursor.count_keeps hc).bind fun n _ =>
        .pure (hpolicy.keeps_ofNat n)
    | position => exact .map ((hpolicy.contextPosition henv).mono fun n _ => hpolicy.keeps_ofNat n)
    | last => exact .map ((hpolicy.size henv).mono fun n _ => hpolicy.keeps_ofNat n)
    | trace =>
      refine (Expr.value_keeps hpolicy arg henv h.1).bind fun items hitems => ?_
      refine (labelOf_keeps hpolicy args henv h.2).bind fun label _ => ?_
      exact (Logged.Ensures.write (hpolicy.trace hnode label _)).bind fun _ _ =>
        .pure (Cursor.keeps_ofList hitems)

theorem labelOf_keeps (hpolicy : Policy P call D a A) :
    (es : List Expr) → {env : Env} → A env → AllSatisfy D a es →
    (labelOf call env es).Keeps P fun _ => True
  | [], env, henv, h => .pure trivial
  | e :: es, env, henv, h => by
    rw [labelOf]
    exact (Expr.value_keeps hpolicy e henv h.1).bind fun items _ =>
      (hpolicy.texts env items).bind fun _ _ => .pure trivial

theorem allTrue_keeps (hpolicy : Policy P call D a A) :
    (es : List Expr) → {env : Env} → A env → AllSatisfy D a es →
    (allTrue call env es).Keeps P fun _ => True
  | [], env, henv, h => .pure trivial
  | e :: es, env, henv, h => by
    rw [allTrue]
    refine (Expr.truth_keeps hpolicy e henv h.1).bind fun b _ => ?_
    cases b with
    | true => exact allTrue_keeps hpolicy es henv h.2
    | false => exact .pure trivial

theorem anyTrue_keeps (hpolicy : Policy P call D a A) :
    (es : List Expr) → {env : Env} → A env → AllSatisfy D a es →
    (anyTrue call env es).Keeps P fun _ => True
  | [], env, henv, h => .pure trivial
  | e :: es, env, henv, h => by
    rw [anyTrue]
    refine (Expr.truth_keeps hpolicy e henv h.1).bind fun b _ => ?_
    cases b with
    | true => exact .pure trivial
    | false => exact anyTrue_keeps hpolicy es henv h.2

theorem valuesOf_keeps (hpolicy : Policy P call D a A) :
    (es : List Expr) → {env : Env} → A env → AllSatisfy D a es →
    (valuesOf call env es).Keeps P fun values => ∀ items ∈ values, P.items items
  | [], env, henv, h => .pure (by simp)
  | e :: es, env, henv, h => by
    rw [valuesOf]
    exact (Expr.value_keeps hpolicy e henv h.1).bind fun items hitems =>
        (valuesOf_keeps hpolicy es henv h.2).bind fun rest hrest =>
      .pure (List.forall_mem_cons.mpr ⟨hitems, hrest⟩)

theorem followSteps_keeps (hpolicy : Policy P call D a A) :
    (es : List Expr) → (atMostOne : Bool) → {env : Env} → {c : Cursor} → A env → AllSatisfy D a es →
    c.Keeps P → (followSteps call env c atMostOne es).Keeps P (Cursor.Keeps P)
  | [], _, env, c, henv, h, hc => .pure hc
  | e :: es, atMostOne, env, c, henv, h, hc => by
    rw [followSteps]
    refine (hpolicy.follow henv (fun env henv => Expr.iterate_keeps hpolicy e henv h.1)
      (fun hcall hposition env size => Expr.iterate_withFocus hcall e (.placed hposition _ size))
        hc).bind fun d hd => ?_
    split
    · exact followSteps_keeps hpolicy es _ henv h.2 hd
    · refine (Cursor.drain_keeps hpolicy.lawful hd).bind fun items hitems => ?_
      refine (hpolicy.documentOrder env.forest hitems).bind fun ordered hordered => ?_
      exact followSteps_keeps hpolicy es _ henv h.2 (Cursor.keeps_ofList hordered)

theorem followMaps_keeps (hpolicy : Policy P call D a A) :
    (es : List Expr) → {env : Env} → {c : Cursor} → A env → AllSatisfy D a es → c.Keeps P →
    (followMaps call env c es).Keeps P (Cursor.Keeps P)
  | [], env, c, henv, h, hc => .pure hc
  | e :: es, env, c, henv, h, hc => by
    rw [followMaps]
    exact (hpolicy.follow henv (fun env henv => Expr.iterate_keeps hpolicy e henv h.1)
      (fun hcall hposition env size => Expr.iterate_withFocus hcall e (.placed hposition _ size))
        hc).bind fun d hd =>
      followMaps_keeps hpolicy es henv h.2 hd

theorem meanTest_keeps (hpolicy : Policy P call D a A) :
    (es : List Expr) → (n : Nat) → (total : Number) → {env : Env} → A env → AllSatisfy D a es →
    (meanTest call env n total es).Keeps P fun _ => True
  | [], _, _, env, henv, h => .pure trivial
  | e :: es, n, total, env, henv, h => by
    rw [meanTest]
    refine (Expr.test_keeps hpolicy e henv h.1).bind fun verdict _ => ?_
    cases verdict with
    | none => exact .pure trivial
    | some score => exact meanTest_keeps hpolicy es n _ henv h.2

theorem filterInTurn_keeps (hpolicy : Policy P call D a A) :
    (es : List Expr) → (items : List (Item × Number)) → {env : Env} → A env → AllSatisfy D a es →
    (∀ entry ∈ items, P.item entry.1) → (filterInTurn call env items es).Keeps P fun kept =>
    ∀ entry ∈ kept, P.item entry.1
  | [], _, env, henv, h, hitems => .pure hitems
  | e :: es, items, env, henv, h, hitems => by
    rw [filterInTurn]
    refine (keepScored_keeps (fun size n item hitem => ?_) items.length items 0 hitems).bind
        fun kept hkept =>
      filterInTurn_keeps hpolicy es kept henv h.2 hkept
    exact Expr.test_keeps hpolicy e (hpolicy.focusOn henv hitem _ _ _) h.1

end

end Policy

/-! ### Variables and calls -/

section Calls

variable {P : Promise} (hP : P.Lawful)

include hP

theorem Env.lookup_keeps (env : Env) {v : Variable} (l : Option Location)
    (hlocal : ∀ value, env.locals.lookup v.name = some value → P.items value)
    (hglobal : ∀ value, env.globals.lookup v.name = some value → P.items value)
    (hunbound : env.locals.lookup v.name = none → env.globals.lookup v.name = none →
      P.failure (.of (.unbound v.name))) : (env.lookup v l).Keeps P P.items := by
  unfold Env.lookup
  split
  · next value hvalue => exact .pure (hlocal value hvalue)
  · next hnone =>
    split
    · next hnone' => exact .fail (hunbound hnone hnone')
    · next value hvalue =>
      split
      · exact checkSequence_keeps hP (hglobal value hvalue)
      · exact .pure (hglobal value hvalue)

theorem Env.bindParams_keeps (env : Env) (l : Option Location) :
    (params : List Variable) → (args : List (List Item)) →
    (∀ arg ∈ args, P.items arg) → (env.bindParams l params args).Keeps P
      fun locals =>
      (args.length = params.length → ∀ v ∈ params, ∃ value, locals.lookup v.name = some value) ∧
        ∀ name value, locals.lookup name = some value → P.items value
  | [], args, _ => by
    rw [bindParams.eq_def]
    exact .pure ⟨fun _ v hv => absurd hv List.not_mem_nil, fun name value h => by simp at h⟩
  | _ :: _, [], _ => by
    rw [bindParams.eq_def]
    exact .pure ⟨fun h => by simp at h, fun name value h => by simp at h⟩
  | v :: vs, arg :: args, hargs => by
    have harg := hargs arg List.mem_cons_self
    have hrest := bindParams_keeps env l vs args fun arg h => hargs arg (List.mem_cons_of_mem _ h)
    -- the value of this parameter, and the parameters behind it, which go before it
    have bound (value : List Item) (hvalue : P.items value) :
        (do return (← env.bindParams l vs args) ++ [(v.name, value)] : Run Bindings).Keeps P
          fun locals =>
            ((arg :: args).length = (v :: vs).length →
            ∀ w ∈ v :: vs, ∃ value, locals.lookup w.name = some value) ∧
            ∀ name value, locals.lookup name = some value → P.items value := by
      refine hrest.bind fun rest hrest => .pure ⟨fun hlength w hw => ?_, fun name value' h => ?_⟩
      · rw [List.lookup_append]
        cases hlookup : rest.lookup w.name with
        | some value => exact ⟨value, rfl⟩
        | none =>
          rcases List.mem_cons.mp hw with rfl | hw
          · exact ⟨value, by simp⟩
          · obtain ⟨value', hvalue'⟩ := hrest.1 (by simpa using hlength) w hw
            rw [hlookup] at hvalue'
            cases hvalue'
      · rw [List.lookup_append] at h
        cases hlookup : rest.lookup name with
        | some _ =>
          rw [hlookup, Option.some_or] at h
          exact hrest.2 name value' (hlookup.trans h)
        | none =>
          rw [hlookup, Option.none_or, List.lookup_cons, List.lookup_nil] at h
          split at h
          · exact Option.some.inj h ▸ hvalue
          · cases h
    rw [bindParams.eq_def]
    dsimp only
    split
    · exact (checkSequence_keeps hP harg).bind bound
    · exact bound arg harg

theorem checkArguments_keeps (env : Env) (l : Option Location) :
    (args : List (List Item)) → (types : List SeqType) →
    (∀ arg ∈ args, P.items arg) →
    (checkArguments env l args types).Keeps P fun args => ∀ arg ∈ args, P.items arg
  | [], _, _ | _ :: _, [], _ => by
    rw [checkArguments.eq_def]
    exact .pure (by simp)
  | arg :: args, t :: ts, h => by
    rw [checkArguments]
    refine (checkSequence_keeps hP (h arg List.mem_cons_self)).bind fun arg harg => ?_
    refine (checkArguments_keeps env l args ts fun arg h' => h arg (List.mem_cons_of_mem _ h')).bind
      fun args hargs => ?_
    exact .pure (List.forall_mem_cons.mpr ⟨harg, hargs⟩)

/-- A call keeps a promise if the body of the innermost function does, entered with parameters that
are bound to the arguments. -/
theorem FunctionItem.callWith_keeps {α : Type} {D : Demand α} {a : α}
    {body : Env → Expr → Run (List Item)} {env : Env} {l : Option Location} :
    (f : FunctionItem) → f.Satisfies D a →
    (∀ s params locals, D.inline s params → f.innermost.Satisfies D (D.enter a params) →
      (s.arity = params.length → ∀ v ∈ params, ∃ value, locals.lookup v.name = some value) →
      (∀ name value, locals.lookup name = some value → P.items value) →
      (body (env.enter locals) f.innermost).Keeps P P.items) →
    {args : List (List Item)} → (∀ arg ∈ args, P.items arg) →
    (f.callWith body env args l).Keeps P P.items
  | .inline name s params e, hf, hbody, args, hargs => by
    rw [FunctionItem.Satisfies] at hf
    rw [callWith]
    split
    · exact Logged.Ensures.locate hP.placeless l (.fail (hP.cause trivial))
    · next harity =>
      refine (Env.bindParams_keeps hP env l params args hargs).bind fun locals hlocals => ?_
      exact hbody s params locals hf.1 hf.2
        (fun h => hlocals.1 ((Decidable.not_not.mp harity).trans h)) hlocals.2
  | .coerced name s inner, hf, hbody, args, hargs => by
    rw [FunctionItem.Satisfies] at hf
    rw [callWith]
    split
    · exact Logged.Ensures.locate hP.placeless l (.fail (hP.cause trivial))
    · refine (checkArguments_keeps hP env l args _ hargs).bind fun args hargs => ?_
      refine (FunctionItem.callWith_keeps inner hf hbody hargs).bind fun result hresult => ?_
      exact checkSequence_keeps hP hresult

end Calls

end TreeQuery
