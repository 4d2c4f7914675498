import TreeQuery.Proofs.Machine.Evaluation
/-!
# The machine evaluates as environments say

`Machine.iterate_follows` and the lemmas with it: from every state the machine leaves the state as
it was and answers as evaluation does in the environment that the state is. A cursor that is opened
on the machine tracks the one that is opened in the environment, so what it answers does not depend
on the state that it is pulled in.
-/

namespace TreeQuery

open Machine (Follows)

/-- Whether calls on the machine are calls in the environment that its state is. -/
def Callee.Follows (callee : Callee) (call : Caller) : Prop :=
  ∀ s f args l, Machine.Follows s Eq (callee f args l) (call s f args l)

variable {s : Env}

namespace Live.Tracks

variable {live : Live} {c : Cursor} (h : live.Tracks s c)

include h

theorem follow {operand : Expr} {nodesOnly : Bool} {iterate : Machine Live}
    {iterate' : Env → Run Cursor} (hiterate : ∀ s, Follows s (Live.Tracks s) iterate (iterate' s)) :
    Follows s (Live.Tracks s) (live.follow operand nodesOnly iterate)
      (c.follow s operand nodesOnly iterate') := by
  have hstart (size : Option Nat) (focus : Focus) (scoring : Bool) (position : Nat) (item : Item) :
      Follows (s.put focus scoring) (Live.Tracks s) (iterate.withFocus ⟨some item, position, size⟩)
        (iterate' (s.focusOn size scoring position item)) := by
    -- the focus is put back before the cursor is pulled, which therefore has to track in any other
    -- focus as well
    have hfocus := hiterate (s.focusOn size scoring position item)
    have htracks : Live.Tracks (s.focusOn size scoring position item) = Live.Tracks s := by
      funext live c
      show live.Tracks (s.put ⟨some item, position, size⟩ scoring) c = live.Tracks s c
      exact propext Live.tracks_put
    rw [htracks] at hfocus
    exact .withFocus hfocus
  unfold Live.follow Cursor.follow
  by_cases hposition : operand.dependsOn .position = true
  · simp only [if_pos hposition]
    refine h.drain.seq fun items => ?_
    exact .pure ((Live.tracks_ofList items).chain (hstart (some items.length)))
  · simp only [if_neg hposition]
    exact .pure (h.chain (hstart none))

theorem filterBy {predicates : List Expr} {judge : Nat → Item → Machine (Option Number)}
    {mean : Env → Run (Option Number)}
    {inTurn : List (Item × Number) → Machine (List (Item × Number))}
    {inTurn' : List (Item × Number) → Run (List (Item × Number))}
    (hjudge : ∀ s position item, Follows s Eq (judge position item)
      (mean (s.focusOn none s.scoring position item)))
    (hinTurn : ∀ items, Follows s Eq (inTurn items) (inTurn' items)) :
    Follows s (Live.Tracks s) (live.filterBy predicates judge inTurn)
      (c.filterBy s predicates mean inTurn') := by
  have hjudge (focus : Focus) (scoring : Bool) (position : Nat) (item : Item) : judge position item
    (s.put focus scoring) =
      (mean (s.focusOn none scoring position item), s.put focus scoring) :=
        (hjudge (s.put focus scoring) position item).eq
  unfold Live.filterBy Cursor.filterBy
  refine .ite (fun _ => .pure h) fun _ => .ite (fun _ => .pure (h.select hjudge 0)) fun _ => ?_
  cases leadingWindow? predicates with
  | some w => exact .pure (h.window hjudge)
  | none =>
    refine h.drain.seq fun items => ?_
    refine (hinTurn _).seq fun kept => .read_bind ?_
    exact .pure (Live.tracks_ofScored _)

end Live.Tracks

namespace Machine

theorem keepScored_follows {judge : Nat → Nat → Item → Machine (Option Number)}
    {judge' : Nat → Nat → Item → Run (Option Number)} {size : Nat}
    (hjudge : ∀ pos item, Follows s Eq (judge size pos item) (judge' size pos item))
    (items : List (Item × Number)) (pos : Nat) :
    Follows s Eq (keepScored judge size pos items)
      (TreeQuery.keepScored judge' size pos items) := by
  induction items generalizing pos with
  | nil => exact .pure rfl
  | cons entry rest ih =>
    obtain ⟨item, total⟩ := entry
    refine (hjudge (pos + 1) item).seq fun verdict => (ih (pos + 1)).seq fun kept => ?_
    cases verdict <;> exact .pure rfl

theorem search_follows {query : Machine (List Item)} {query' : Run (List Item)}
    {input : Machine Live} {input' : Run Cursor} (hquery : Follows s Eq query query')
    (hinput : Follows s (Live.Tracks s) input input') :
    Follows s Eq (search query input) (s.search query' input') := by
  refine (Follows.look Env.requireMatcher).seq fun matcher => hquery.seq fun items => ?_
  refine (Follows.look fun env => env.texts items).seq fun words =>
    hinput.bind fun c c' hc => .read_bind ?_
  exact hc.fold _ _

section

variable {callee : Callee} {call : Caller}

mutual

theorem iterate_follows (hcall : callee.Follows call) : (e : Expr) → (s : Env) →
    Follows s (Live.Tracks s) (iterate callee e) (e.iterate call s)
  | ⟨form, _, location⟩, s => (iterateForm_follows hcall form location s).locate location

theorem value_follows (hcall : callee.Follows call) : (e : Expr) → (s : Env) →
    Follows s Eq (value callee e) (e.value call s)
  | ⟨form, τ, location⟩, s => by
    have hdrain := (iterateForm_follows hcall form location s).locate location |>.bind
      (f := Live.drain) (g := fun c => c.drain s.scoring) fun c c' hc => hc.drain
    cases form
    case check operand target promote =>
      simp only [value, Expr.value]
      refine (value_follows hcall operand s).seq fun items => ?_
      exact .look fun env => checkSequence env.forest target promote location items
    all_goals simpa only [value, Expr.value] using hdrain

theorem truth_follows (hcall : callee.Follows call) : (e : Expr) → (s : Env) →
    Follows s Eq (truth callee e) (e.truth call s)
  | ⟨form, _, location⟩, s =>
    ((iterateForm_follows hcall form location s).locate location).bind fun _ _ hc => hc.truth

theorem test_follows (hcall : callee.Follows call) : (e : Expr) → (s : Env) →
    Follows s Eq (test callee s.focus.position e) (e.test call s)
  | ⟨form, τ, location⟩, s => by
    have hwhole : Follows s Eq
        (do
          let c ← (iterateForm callee location form).locate location
          let holds ← c.predicateTruth location s.focus.position
          return if holds then some Number.zero else none)
        (do
          let c ← (form.iterate call s location).locate location
          let holds ← c.predicateTruth s.scoring location s.focus.position
          return if holds then some .zero else none) := by
      refine ((iterateForm_follows hcall form location s).locate location).bind fun c c' hc => ?_
      exact hc.predicateTruth.seq fun _ => .pure rfl
    cases form
    case position w => exact .pure rfl
    case containsText input query =>
      simp only [test, Expr.test]
      refine ((search_follows (value_follows hcall query s) (iterate_follows hcall input s)).locate
        location).seq ?_
      intro m
      exact .pure rfl
    all_goals simpa only [test, Expr.test] using hwhole

theorem iterateForm_follows (hcall : callee.Follows call) :
    (form : Form) → (l : Option Location) → (s : Env) →
    Follows s (Live.Tracks s) (iterateForm callee l form) (form.iterate call s l)
  | .literal values, l, s => .pure (Live.tracks_ofList _)
  | .function f, l, s => .pure (Live.tracks_single _)
  | .contextItem, l, s => (Follows.look Env.contextItem).seqMap fun item => Live.tracks_single item
  | .position w, l, s => .read_bind (.pure (Live.tracks_ofBool _))
  | .conjunction operands, l, s => (allTrue_follows hcall operands s).seqMap fun b =>
    Live.tracks_ofBool b
  | .disjunction operands, l, s => (anyTrue_follows hcall operands s).seqMap fun b =>
    Live.tracks_ofBool b
  | .comparison style op left right, l, s => by
    refine (value_follows hcall left s).seq fun ls => ?_
    refine (Follows.look fun env => Logged.lift (atomizeAll env.forest ls)).seq fun ls => ?_
    refine (value_follows hcall right s).seq fun rs => ?_
    refine (Follows.look fun env => Logged.lift (atomizeAll env.forest rs)).seq fun rs => ?_
    exact (Follows.look fun _ => Logged.lift (compareAtomics style op ls rs)).seqMap fun items =>
      Live.tracks_ofList items
  | .call f args, l, s => callBuiltin_follows hcall f args s
  | .step axis test predicates, l, s => by
    refine (Follows.look Env.contextItem).seq fun item => ?_
    cases item with
    | atomic _ | function _ => exact .fail _
    | node n =>
      refine .read_bind
          (((Live.tracks_ofList _).filterBy (fun s position item => .withFocus ?_) fun items =>
        filterInTurn_follows hcall predicates items s).bind fun kept kept' hkept => ?_)
      · exact meanTest_follows hcall predicates
          (s.focusOn none s.scoring position item) predicates.length .zero
      · refine .ite (fun _ => hkept.drainScored.seq fun scored => .read_bind ?_)
          fun _ => .pure hkept
        exact .pure (Live.tracks_ofScored _)
  | .path root steps, l, s =>
    (iterate_follows hcall root s).bind fun c c' hc =>
      followSteps_follows hcall steps s hc root.type.atMostOne
  | .relativePath steps, l, s => by
    refine (Follows.look Env.contextItem).seq fun item => ?_
    exact followSteps_follows hcall steps s (Live.tracks_single item) true
  | .map [], l, s => .fail _
  | .map (first :: rest), l, s =>
    (iterate_follows hcall first s).bind fun c c' hc => followMaps_follows hcall rest s hc
  | .filter root predicates, l, s => by
    refine (iterate_follows hcall root s).bind fun c c' hc =>
        hc.filterBy (fun s position item => .withFocus ?_) fun items =>
      filterInTurn_follows hcall predicates items s
    exact meanTest_follows hcall predicates (s.focusOn none s.scoring position item)
      predicates.length .zero
  | .containsText input query, l, s => by
    refine (search_follows (value_follows hcall query s) (iterate_follows hcall input s)).seq
      fun m => ?_
    exact .pure (Live.tracks_ofBool _)
  | .conditional condition yes no, l, s => by
    refine (truth_follows hcall condition s).seq fun b => ?_
    exact .ite (fun _ => iterate_follows hcall yes s) fun _ => iterate_follows hcall no s
  | .reference v, l, s => (Follows.look fun env => env.lookup v l).seqMap fun items =>
    Live.tracks_ofList items
  | .apply f args, l, s => by
    refine (value_follows hcall f s).seq fun fs => ?_
    rcases fs with _ | ⟨item, _ | ⟨other, rest⟩⟩
    · exact .fail _
    · cases item with
      | node _ | atomic _ => exact .fail _
      | function f =>
        refine (valuesOf_follows hcall args s).seq fun values => ?_
        exact (hcall s f values l).seqMap fun items => Live.tracks_ofList items
    · cases item <;> exact .fail _
  | .check operand target promote, l, s =>
    (iterate_follows hcall operand s).bind fun c c' hc => .pure hc.check
  | .failure e, l, s => .fail _

theorem callBuiltin_follows (hcall : callee.Follows call) :
    (f : Builtin) → (args : List Expr) → (s : Env) →
    Follows s (Live.Tracks s) (callBuiltin callee f args) (TreeQuery.callBuiltin call s f args)
  | f, [], s => by
    cases f
    case position => exact (Follows.look Env.contextPosition).seqMap fun n => Live.tracks_ofNat n
    case last => exact (Follows.look Env.contextSize).seqMap fun n => Live.tracks_ofNat n
    all_goals exact .fail _
  | f, arg :: args, s => by
    cases f
    case boolean => exact (truth_follows hcall arg s).seqMap fun b => Live.tracks_ofBool b
    case not =>
      refine (truth_follows hcall arg s).seq fun b => ?_
      exact .pure (Live.tracks_ofBool _)
    case «exists» | empty =>
      refine (iterate_follows hcall arg s).bind fun c c' hc =>
        hc.first?.bind fun found found' hfound => ?_
      cases hfound <;> exact .pure (Live.tracks_ofBool _)
    case count =>
      refine (iterate_follows hcall arg s).bind fun c c' hc => hc.count.seq fun n => ?_
      exact .pure (Live.tracks_ofNat _)
    case position => exact (Follows.look Env.contextPosition).seqMap fun n => Live.tracks_ofNat n
    case last => exact (Follows.look Env.contextSize).seqMap fun n => Live.tracks_ofNat n
    case trace =>
      refine (value_follows hcall arg s).seq fun items =>
        (labelOf_follows hcall args s).seq fun label => ?_
      exact (Follows.look _).seq fun _ => .pure (Live.tracks_ofList items)

theorem labelOf_follows (hcall : callee.Follows call) : (args : List Expr) → (s : Env) →
    Follows s Eq (labelOf callee args) (TreeQuery.labelOf call s args)
  | [], s => .pure rfl
  | label :: _, s => by
    refine (value_follows hcall label s).seq fun items => ?_
    refine (Follows.look fun env => env.texts items).seq fun texts => ?_
    exact .pure rfl

theorem allTrue_follows (hcall : callee.Follows call) : (es : List Expr) → (s : Env) →
    Follows s Eq (allTrue callee es) (TreeQuery.allTrue call s es)
  | [], s => .pure rfl
  | e :: es, s => by
    refine (truth_follows hcall e s).seq fun b => ?_
    exact .ite (fun _ => allTrue_follows hcall es s) fun _ => .pure rfl

theorem anyTrue_follows (hcall : callee.Follows call) : (es : List Expr) → (s : Env) →
    Follows s Eq (anyTrue callee es) (TreeQuery.anyTrue call s es)
  | [], s => .pure rfl
  | e :: es, s => by
    refine (truth_follows hcall e s).seq fun b => ?_
    exact .ite (fun _ => .pure rfl) fun _ => anyTrue_follows hcall es s

theorem valuesOf_follows (hcall : callee.Follows call) : (es : List Expr) → (s : Env) →
    Follows s Eq (valuesOf callee es) (TreeQuery.valuesOf call s es)
  | [], s => .pure rfl
  | e :: es, s => by
    refine (value_follows hcall e s).seq fun items =>
      (valuesOf_follows hcall es s).seq fun rest => ?_
    exact .pure rfl

theorem followSteps_follows (hcall : callee.Follows call) :
    (steps : List Expr) → (s : Env) → {live : Live} → {c : Cursor} →
    live.Tracks s c → (atMostOne : Bool) →
    Follows s (Live.Tracks s) (followSteps callee live atMostOne steps)
      (TreeQuery.followSteps call s c atMostOne steps)
  | [], s, live, c, h, atMostOne => .pure h
  | step :: steps, s, live, c, h, atMostOne => by
    refine (h.follow fun s => iterate_follows hcall step s).bind fun next next' hnext => ?_
    refine .ite (fun _ => followSteps_follows hcall steps s hnext step.type.atMostOne) fun _ => ?_
    refine hnext.drain.seq fun items => ?_
    refine (Follows.look fun env => Logged.ofOutcome (documentOrder env.forest items)).seq
      fun ordered => ?_
    exact followSteps_follows hcall steps s (Live.tracks_ofList ordered) false

theorem followMaps_follows (hcall : callee.Follows call) :
    (operands : List Expr) → (s : Env) → {live : Live} →
    {c : Cursor} → live.Tracks s c →
    Follows s (Live.Tracks s) (followMaps callee live operands)
      (TreeQuery.followMaps call s c operands)
  | [], _, _, _, h => .pure h
  | operand :: operands, s, _, _, h =>
    (h.follow fun s => iterate_follows hcall operand s).bind fun _ _ hnext =>
      followMaps_follows hcall operands s hnext

theorem meanTest_follows (hcall : callee.Follows call) :
    (es : List Expr) → (s : Env) → (count : Nat) → (total : Number) →
    Follows s Eq (meanTest callee s.focus.position count total es)
      (TreeQuery.meanTest call s count total es)
  | [], s, count, total => .pure rfl
  | e :: es, s, count, total => by
    refine (test_follows hcall e s).seq fun verdict => ?_
    cases verdict with
    | none => exact .pure rfl
    | some score => exact meanTest_follows hcall es s count (total.add .double score)

theorem filterInTurn_follows (hcall : callee.Follows call) :
    (es : List Expr) → (items : List (Item × Number)) → (s : Env) →
    Follows s Eq (filterInTurn callee items es) (TreeQuery.filterInTurn call s items es)
  | [], items, s => .pure rfl
  | e :: es, items, s => by
    refine (keepScored_follows (fun pos item => .withFocus ?_) items 0).seq fun kept => ?_
    · exact test_follows hcall e (s.focusOn (some items.length) s.scoring pos item)
    · exact filterInTurn_follows hcall es kept s

end

end

/-! ### Calls -/

theorem callWith_follows {body : Expr → Machine (List Item)} {body' : Env → Expr → Run (List Item)}
    (hbody : ∀ e s, Follows s Eq (body e) (body' s e)) (s : Env) (l : Option Location) :
    (f : FunctionItem) →
    (args : List (List Item)) → Follows s Eq (callWith body args l f) (f.callWith body' s args l)
  | .inline _ _ params e, args => by
    unfold callWith FunctionItem.callWith
    refine .ite (fun _ => .look _) fun _ => ?_
    refine (Follows.look fun env => env.bindParams l params args).seq fun locals => ?_
    exact .withLocals (.withFocus (hbody e (s.enter locals)))
  | .coerced _ signature inner, args => by
    unfold callWith FunctionItem.callWith
    refine .ite (fun _ => .look _) fun _ => ?_
    refine (Follows.look fun env => checkArguments env l args signature.params).seq fun args => ?_
    refine (callWith_follows hbody s l inner args).seq fun result => ?_
    exact .look fun env => checkSequence env.forest signature.result true l result

theorem callWithin_follows (depth : Nat) :
    Callee.Follows (callWithin depth) (TreeQuery.callWithin depth) := by
  induction depth with
  | zero => exact fun _ _ _ _ => .fail _
  | succ depth ih => exact fun s f args l => callWith_follows (fun e s => value_follows ih e s) s l f args

end Machine

end TreeQuery
