import TreeQuery.Proofs.Cursor.Delivery
import TreeQuery.Proofs.Machine.Refinement
/-!
# Cursors of one evaluation side by side

A session keeps open cursors that share one machine. Calls open another cursor, pull one that is
open, or evaluate something in between, each in a focus of its own. No call leaves a trace in the
focus, the function frame or the scoring flag, and whatever the order of the calls, each cursor
shows what it shows when it is drained at once where it was opened (`Session.undisturbed`).
-/

namespace TreeQuery

open Machine (Follows Agree)

variable {s : Env}

/-! ### Pulls -/

namespace Answer

def state : Answer → Env
  | ended _ s => s
  | yielded _ _ _ s _ => s

def rest : Answer → Live
  | ended .. => .ofList []
  | yielded _ _ _ _ rest => rest

/-- What a pull shows: an item or a failure with its score, or the end. -/
def shown : Answer → Option Delivery
  | ended .. => none
  | yielded _ outcome score _ _ => some (outcome, score)

end Answer

mutual

def Live.deliveries : Live → Env → List Delivery × Env
  | .mk pull, s => (pull s).deliveries

def Answer.deliveries : Answer → List Delivery × Env
  | .ended _ s => ([], s)
  | .yielded _ outcome score s (.mk pull) =>
    ((outcome, score) :: (pull s).deliveries.1, (pull s).deliveries.2)

end

def firstPulls (ds : List Delivery) (n : Nat) : List (Option Delivery) :=
  (List.range n).map fun k => ds[k]?

theorem firstPulls_succ (ds : List Delivery) (n : Nat) :
    firstPulls ds (n + 1) = firstPulls ds n ++ [ds[n]?] := by
  rw [firstPulls, List.range_succ, List.map_append]
  rfl

theorem Reply.deliveries_rest {scoring : Bool} (r : Reply) :
    r.rest.deliveries scoring = (r.deliveries scoring).tail := by
  cases r <;> rfl

namespace Answer.Tracks

theorem state : {a : Answer} → {r : Reply} → a.Tracks s r → a.state = s
  | .ended .., .ended .., h => h.1
  | .yielded .., .yielded .., h => h.1
  | .ended .., .yielded .., h | .yielded .., .ended .., h => h.elim

theorem rest : {a : Answer} → {r : Reply} → a.Tracks s r → a.rest.Tracks s r.rest
  | .ended .., .ended .., _ => fun _ _ => ⟨rfl, rfl⟩
  | .yielded .., .yielded .., h => h.2.2.2.2
  | .ended .., .yielded .., h | .yielded .., .ended .., h => h.elim

theorem shown (scoring : Bool) : {a : Answer} → {r : Reply} → a.Tracks s r →
    a.shown = (r.deliveries scoring)[0]?
  | .ended .., .ended .., _ => rfl
  | .yielded .., .yielded .., h => by
    obtain ⟨-, -, rfl, rfl, -⟩ := h
    rfl
  | .ended .., .yielded .., h | .yielded .., .ended .., h => h.elim

theorem deliveries : {a : Answer} → {r : Reply} → {s : Env} → a.Tracks s r →
    a.deliveries = (r.deliveries s.scoring, s)
  | .ended .., .ended .., s, h => by
    obtain ⟨rfl, -⟩ := h
    rfl
  | .yielded _ _ _ _ (.mk pull), .yielded _ _ _ (.mk hint pull'), s, h => by
    obtain ⟨rfl, -, rfl, rfl, h⟩ := h
    have ih := Answer.Tracks.deliveries h.pull
    simp only [Answer.deliveries, Reply.deliveries, Cursor.deliveries_eq]
    rw [show pull _ = (Live.mk pull).pull _ from rfl, ih]
  | .ended .., .yielded .., _, h | .yielded .., .ended .., _, h => h.elim

end Answer.Tracks

theorem Live.Tracks.deliveries {live : Live} {c : Cursor} (h : live.Tracks s c) :
    live.deliveries s = (c.deliveries s.scoring, s) := by
  obtain ⟨pull⟩ := live
  rw [Cursor.deliveries_eq]
  exact h.pull.deliveries

/-! ### Sessions -/

/-- A cursor that was opened for an expression in a focus, and what its pulls have shown so far. -/
structure Opened where
  focus : Focus
  expr : Expr
  cursor : Live
  shown : List (Option Delivery)

/-- The state of the machine, and the cursors in the order in which they were opened. -/
structure Session where
  state : Env
  pool : List Opened

inductive Call where
  | create (e : Expr)
  | pull (i : Nat)
  | value (e : Expr)
  | truth (e : Expr)
  | judge (predicates : List Expr) (item : Item) (position : Nat) (size : Option Nat)

namespace Session

/-- Makes a call in a focus. If it fails the session goes on, without a new cursor. -/
def make (callee : Callee) (t : Session) (focus : Focus) (c : Call) : Session :=
  let s := t.state.withFocus focus
  match c with
  | .create e =>
    let opened := Machine.iterate callee e s
    match opened.1.outcome with
    | .ok cursor => ⟨opened.2, t.pool ++ [⟨focus, e, cursor, []⟩]⟩
    | .error _ => ⟨opened.2, t.pool⟩
  | .pull i =>
    match t.pool[i]? with
    | some o =>
      let answer := o.cursor.pull s
      ⟨answer.state,
        t.pool.set i { o with cursor := answer.rest, shown := o.shown ++ [answer.shown] }⟩
    | none => ⟨s, t.pool⟩
  | .value e => ⟨(Machine.value callee e s).2, t.pool⟩
  | .truth e => ⟨(Machine.truth callee e s).2, t.pool⟩
  | .judge predicates item position size =>
    ⟨(Machine.judge callee predicates item position size s).2, t.pool⟩

def run (callee : Callee) (t : Session) (calls : List (Focus × Call)) : Session :=
  calls.foldl (fun t c => t.make callee c.1 c.2) t

end Session

/-! ### No cursor is disturbed -/

/-- The cursor was opened in its focus, it tracks what is left there of the cursor that evaluation
opens, and it has shown the rest. -/
def Opened.InStep (call : Caller) (s : Env) (o : Opened) : Prop :=
  ∃ c left, (o.expr.iterate call (s.withFocus o.focus)).Gives c ∧ o.cursor.Tracks s left ∧
    left.deliveries s.scoring = (c.deliveries s.scoring).drop o.shown.length ∧
    o.shown = firstPulls (c.deliveries s.scoring) o.shown.length

structure Session.InStep (call : Caller) (s : Env) (t : Session) : Prop where
  /-- The state is the one in the beginning, but for the focus. -/
  state : ∀ focus, t.state.withFocus focus = s.withFocus focus
  pool : ∀ o ∈ t.pool, o.InStep call s

section

variable {callee : Callee} {call : Caller} {t : Session} (hcall : callee.Follows call)

theorem Opened.InStep.pull {o : Opened} (h : o.InStep call s) (focus : Focus) :
    let answer := o.cursor.pull (s.withFocus focus)
    answer.state = s.withFocus focus ∧
      Opened.InStep call s { o with cursor := answer.rest, shown := o.shown ++
        [answer.shown] } := by
  intro answer
  obtain ⟨c, left, hgives, htracks, hleft, hshown⟩ := h
  have hanswer : answer.Tracks (s.withFocus focus) (left.pull s.scoring) :=
    Live.Tracks.pull (Live.tracks_put.mpr htracks)
  refine ⟨hanswer.state, c, (left.pull s.scoring).rest, hgives,
    Live.tracks_put.mp hanswer.rest, ?_, ?_⟩
  · -- one more delivery is shown, and one less is left
    rw [Reply.deliveries_rest, ← Cursor.deliveries_eq, hleft, List.tail_drop, List.length_append]
    rfl
  · have hnext : answer.shown = (c.deliveries s.scoring)[o.shown.length]? := by
      rw [hanswer.shown s.scoring, ← Cursor.deliveries_eq, hleft, List.getElem?_drop, Nat.add_zero]
    show o.shown ++ [answer.shown] = firstPulls _ (o.shown ++ [answer.shown]).length
    rw [List.length_append, List.length_singleton, firstPulls_succ, ← hshown, hnext]

include hcall

theorem Opened.inStep {e : Expr} {focus : Focus} {live : Live}
    (h : (Machine.iterate callee e (s.withFocus focus)).1.Gives live) :
    Opened.InStep call s ⟨focus, e, live, []⟩ := by
  obtain ⟨c, hc, htracks⟩ := (Machine.iterate_follows hcall e (s.withFocus focus)).of_gives h
  exact ⟨c, c, hc, Live.tracks_put.mp htracks, rfl, rfl⟩

namespace Session

/-- A call leaves the state that it was made in, and keeps the cursors in step. -/
theorem InStep.make (h : t.InStep call s) (focus : Focus) (c : Call) :
    (t.make callee focus c).state = s.withFocus focus ∧ (t.make callee focus c).InStep call s := by
  suffices hcalled : (t.make callee focus c).state = s.withFocus focus ∧
      ∀ o ∈ (t.make callee focus c).pool, o.InStep call s by
    refine ⟨hcalled.1, fun focus' => ?_, hcalled.2⟩
    rw [hcalled.1]
    rfl
  unfold Session.make
  rw [h.state]
  cases c with
  | create e =>
    have hopened := Machine.iterate_follows hcall e (s.withFocus focus)
    dsimp only
    cases hlive : (Machine.iterate callee e (s.withFocus focus)).1.outcome with
    | error _ => exact ⟨hopened.state, h.pool⟩
    | ok live =>
      refine ⟨hopened.state, fun o ho => ?_⟩
      rcases List.mem_append.mp ho with ho | ho
      · exact h.pool o ho
      · obtain rfl := List.mem_singleton.mp ho
        exact Opened.inStep hcall hlive
  | pull i =>
    dsimp only
    cases ho : t.pool[i]? with
    | none => exact ⟨rfl, h.pool⟩
    | some o =>
      have hpull := (h.pool o (List.mem_of_getElem? ho)).pull focus
      refine ⟨hpull.1, fun o' ho' => ?_⟩
      rcases List.mem_or_eq_of_mem_set ho' with ho' | rfl
      · exact h.pool o' ho'
      · exact hpull.2
  | value e => exact ⟨(Machine.value_follows hcall e _).state, h.pool⟩
  | truth e => exact ⟨(Machine.truth_follows hcall e _).state, h.pool⟩
  | judge predicates item position size =>
    have hmean : Follows (s.withFocus focus) Eq
        (Machine.judge callee predicates item position size) _ :=
      .withFocus
        (Machine.meanTest_follows hcall predicates
        (s.withFocus ⟨some item, position, size⟩) predicates.length .zero)
    exact ⟨hmean.state, h.pool⟩

theorem InStep.run (h : t.InStep call s) (calls : List (Focus × Call)) :
    (t.run callee calls).InStep call s := by
  induction calls generalizing t with
  | nil => exact h
  | cons c calls ih => exact ih (h.make hcall c.1 c.2).2

end Session
end

/-- No cursor is disturbed. A session begins with no cursors in any state and makes calls of any
kind, each in some focus. Then a further call leaves the state in which it is made, whether it fails
or not. Each cursor that has been opened is one that, in the focus it was opened in, can be drained
at once; this leaves the state as well, the deliveries are those of evaluation in that environment,
and pull by pull the cursor has shown just them, and then only the end. -/
theorem Session.undisturbed (depth : Nat) (s : Env) (calls : List (Focus × Call)) :
    let callee := Machine.callWithin depth
    let t := Session.run callee ⟨s, []⟩ calls
    (∀ focus call, (t.make callee focus call).state = t.state.withFocus focus) ∧
    ∀ o ∈ t.pool, ∃ live c,
      (Machine.iterate callee o.expr (s.withFocus o.focus)).1.Gives live ∧
      (Machine.iterate callee o.expr (s.withFocus o.focus)).2 = s.withFocus o.focus ∧
      live.deliveries (s.withFocus o.focus) = (c.deliveries s.scoring, s.withFocus o.focus) ∧
      (o.expr.iterate (callWithin depth) (s.withFocus o.focus)).Gives c ∧
      o.shown = firstPulls (c.deliveries s.scoring) o.shown.length := by
  intro callee t
  have hcall : callee.Follows (callWithin depth) := Machine.callWithin_follows depth
  have hbegin : InStep (callWithin depth) s ⟨s, []⟩ := ⟨fun _ => rfl, nofun⟩
  have hrun : t.InStep (callWithin depth) s := hbegin.run hcall calls
  constructor
  · intro focus call
    rw [hrun.state]
    exact (hrun.make hcall focus call).1
  · intro o ho
    obtain ⟨c, left, hgives, -, -, hshown⟩ := hrun.pool o ho
    obtain ⟨live, hlive, htracks⟩ :=
      (Machine.iterate_follows hcall o.expr (s.withFocus o.focus)).gives hgives
    exact ⟨live, c, hlive, (Machine.iterate_follows hcall o.expr _).state,
      htracks.deliveries, hgives, hshown⟩

/-- A filter and a map that fails for one of its items are pulled in turn, and there are calls in
between that fail without an item in focus. -/
theorem Session.undisturbed_filter_map :
    let item : Expr := ⟨.contextItem, .of .any .one, none⟩
    let holds : Expr := ⟨.call .boolean [item], .boolean, none⟩
    let constants : Expr :=
      ⟨.literal [.boolean true, .boolean false, .string "a"], .of .any .oneOrMore, none⟩
    let refused : Expr := ⟨.failure (.of .sizeUnknown), .of .any .zeroOrMore, none⟩
    let filter : Expr := ⟨.filter constants [holds], .of .any .zeroOrMore, none⟩
    let map : Expr :=
      ⟨.map [constants, ⟨.conditional holds item refused, .of .any .zeroOrMore, none⟩],
      .of .any .zeroOrMore, none⟩
    let s : Env := .ofContext { forest := .empty false }
    let here : Focus := ⟨some (.atomic (.boolean false)), 1, some 1⟩
    let calls : List (Focus × Call) :=
      [(here, .create filter), (.none, .create map), (here, .pull 0), (.none, .value item),
      (here, .pull 1), (.none, .pull 1),
      (here, .judge [holds, refused] (.atomic (.boolean true)) 2 none), (.none, .pull 0),
      (here, .truth holds), (here, .pull 0), (.none, .create item), (here, .pull 1)]
    let t := Session.run (Machine.callWithin 1) ⟨s, []⟩ calls
    (t.pool.map fun o => o.shown.map (Option.map fun d => d.1.toOption.map Item.render)) =
      [[some (some "true()"), some (some "\"a\""), none],
        [some (some "true()"), some none, some (some "\"a\"")]] ∧
    ∀ o ∈ t.pool, ∃ live c,
      (Machine.iterate (Machine.callWithin 1) o.expr (s.withFocus o.focus)).1.Gives live ∧
      (Machine.iterate (Machine.callWithin 1) o.expr (s.withFocus o.focus)).2 =
        s.withFocus o.focus ∧
      live.deliveries (s.withFocus o.focus) = (c.deliveries s.scoring, s.withFocus o.focus) ∧
      (o.expr.iterate (callWithin 1) (s.withFocus o.focus)).Gives c ∧
      o.shown = firstPulls (c.deliveries s.scoring) o.shown.length := by
  intro item holds constants refused filter map s here calls t
  exact ⟨by decide +kernel, (undisturbed 1 s calls).2⟩

end TreeQuery
