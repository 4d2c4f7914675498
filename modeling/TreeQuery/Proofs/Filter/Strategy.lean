import Mathlib.Data.List.Basic
import TreeQuery.Proofs.Cursor.Truth
import TreeQuery.Proofs.Eval.Focus
import TreeQuery.Proofs.Filter.InTurn
import TreeQuery.Proofs.Typing.Describes
/-!
# The strategies of filters

A filter can apply its predicates to all items one after the other, or judge each item by all
predicates as it comes. The two agree where predicates that are not positional have sound static
types: such a predicate is no number and has the same outcome at every position, so that it does not
matter how the items are numbered (`Expr.test_steady`), and the item-by-item judgement of `meanTest`
is what filtering in turn comes to (`filterInTurn_steady`).
-/

namespace TreeQuery

variable {call : Caller} {env : Env}

/-! ### Predicates that are not positional -/

theorem Cursor.predicateTruth_placed {c : Cursor} {scoring : Bool} {l : Option Location}
    {position position' : Nat} {b : Bool}
    (hv : ∀ v score, c.Yields scoring [(.atomic v, score)] → v.number? = none)
    (h : (c.predicateTruth scoring l position).Gives b) :
    (c.predicateTruth scoring l position').Gives b := by
  simp only [predicateTruth, Logged.gives_bind] at h ⊢
  obtain ⟨verdict, hd, h⟩ := h
  refine ⟨verdict, hd, ?_⟩
  rcases decider_cases hd with ⟨rfl, -⟩ | ⟨v, score, rfl, hy⟩ | ⟨n, score, rest, rfl, -⟩
  · exact h
  · simp only [hv v score hy] at h ⊢
    exact h
  · exact h

/-- A single value of a sound static type without numbers is no number. -/
theorem Expr.SoundAt.number?_eq_none {e : Expr} (sound : e.SoundAt call env)
    (hnumber : e.type.mayBeNumber = false) {c : Cursor} (hc : (e.iterate call env).Gives c)
    {v : Atomic} {score : Option Number} (hy : c.Yields env.scoring [(.atomic v, score)]) :
    v.number? = none := by
  have described := sound [.atomic v] (by
    rw [Expr.drained, Logged.gives_bind]
    exact ⟨c, hc, Cursor.drain_iff.mpr ⟨_, hy, by rw [List.length_singleton]; decide, rfl⟩⟩)
  cases hn : v.number? with
  | none => rfl
  | some x => exact absurd (described.mayBeNumber (by simp [hn])) (by simp [hnumber])

theorem Expr.test_placed (hc : call.IgnoresFocus) {e : Expr} (he : e.isPositional = false)
    (sound : e.SoundAt call env) {verdict : Option Number} (position : Nat) (size : Option Nat)
    (h : (e.test call env).Gives verdict) :
    (e.test call (env.placed position size)).Gives verdict := by
  simp only [Expr.isPositional, Bool.or_eq_false_iff] at he
  obtain ⟨hnumber, hposition⟩ := he
  obtain ⟨form, type, location⟩ := e
  have hform : form.dependsOn .position = false := by simpa [Expr.dependsOn] using hposition
  by_cases hw : ∃ w, form = .position w
  · obtain ⟨w, rfl⟩ := hw
    simp [Form.dependsOn] at hform
  by_cases hs : ∃ input query, form = .containsText input query
  · obtain ⟨input, query, rfl⟩ := hs
    simp only [Form.dependsOn, Bool.or_eq_false_iff] at hform
    simp only [Expr.test, Env.placed, Env.search_withFocus,
      Expr.value_withFocus hc query (.placed hform.2 position size),
      Expr.iterate_withFocus hc input (.placed hform.1 position size)]
    simpa only [Expr.test] using h
  simp only [not_exists] at hw hs
  rw [Expr.test_of_other hw hs] at h ⊢
  rw [Env.placed, Form.iterate_withFocus hc form location (.placed hform position size)]
  simp only [Logged.gives_bind] at h ⊢
  obtain ⟨cursor, hcursor, holds, hholds, h⟩ := h
  refine ⟨cursor, hcursor, holds, ?_, h⟩
  exact Cursor.predicateTruth_placed
    (fun v score hy => sound.number?_eq_none hnumber (by rwa [Expr.iterate]) hy) hholds

/-- The predicates have sound static types in the focus on an item, wherever it stands. -/
def SoundOn (call : Caller) (env : Env) (predicates : List Expr) (item : Item) : Prop :=
  ∀ e ∈ predicates, ∀ size position, e.SoundAt call (env.focusOn size env.scoring position item)

theorem SoundOn.tail {e : Expr} {es : List Expr} {item : Item}
    (h : SoundOn call env (e :: es) item) : SoundOn call env es item :=
  fun e' he' => h e' (List.mem_cons_of_mem _ he')

/-- What an item is judged by where its place does not matter: the focus at no place. -/
def Env.focusAlone (env : Env) (item : Item) : Env := env.focusOn none env.scoring 0 item

/-- A predicate that is not positional is steady: its score anywhere is the one in the focus at no
place. -/
theorem Expr.test_steady (hc : call.IgnoresFocus) {e : Expr} (he : e.isPositional = false)
    {size : Option Nat} {position : Nat} {item : Item}
    (sound : e.SoundAt call (env.focusOn size env.scoring position item)) {verdict : Option Number}
    (h : (e.test call (env.focusOn size env.scoring position item)).Gives verdict) :
    (e.test call (env.focusAlone item)).Gives verdict :=
  Expr.test_placed hc he sound 0 none h

/-! ### In turn and item by item -/

def answer {α : Type} (x : Run (Option α)) : Option α := x.outcome.toOption.join

theorem answer_of_gives {α : Type} {x : Run (Option α)} {a : Option α} (h : x.Gives a) :
    answer x = a := by
  rw [answer, show x.outcome = .ok a from h]
  rfl

theorem keepScored_steady {judge : Nat → Nat → Item → Run (Option Number)}
    (alone : Item → Run (Option Number)) {size : Nat} : (items : List (Item × Number)) →
    (∀ entry ∈ items, ∀ position verdict, (judge size position entry.1).Gives verdict →
      (alone entry.1).Gives verdict) →
    {pos : Nat} → {kept : List (Item × Number)} → (keepScored judge size pos items).Gives kept →
      (∀ entry ∈ items, ∃ verdict, (alone entry.1).Gives verdict) ∧
        kept = items.filterMap fun entry => (answer (alone entry.1)).map fun score =>
        (entry.1, entry.2.add .double score)
  | [], _, pos, kept, h => by
    simp only [keepScored, Logged.gives_pure] at h
    simp [← h]
  | (item, total) :: rest, steady, pos, kept, h => by
    simp only [keepScored, Logged.gives_bind] at h
    obtain ⟨verdict, hverdict, others, hothers, h⟩ := h
    have here := steady (item, total) List.mem_cons_self _ _ hverdict
    obtain ⟨hall, rfl⟩ :=
      keepScored_steady alone rest
        (fun entry hentry => steady entry (List.mem_cons_of_mem _ hentry)) hothers
    refine ⟨?_, ?_⟩
    · intro entry hentry
      rcases List.mem_cons.mp hentry with rfl | hentry
      · exact ⟨verdict, here⟩
      · exact hall entry hentry
    · simp only [List.filterMap_cons, answer_of_gives here]
      cases verdict with
      | none => exact (Logged.gives_pure.mp h).symm
      | some score => exact (Logged.gives_pure.mp h).symm

def meanAlone (call : Caller) (env : Env) (count : Nat) (es : List Expr) (entry : Item × Number) :
    Run (Option Number) :=
  meanTest call (env.focusAlone entry.1) count entry.2 es

theorem meanTest_placed (hc : call.IgnoresFocus) (position : Nat) (size : Option Nat) (count : Nat)
    {mean : Option Number} : (es : List Expr) → (∀ e ∈ es, e.isPositional = false) →
    (∀ e ∈ es, e.SoundAt call env) → {total : Number} →
    (meanTest call env count total es).Gives mean →
    (meanTest call (env.placed position size) count total es).Gives mean
  | [], _, _, _, h => h
  | e :: es, hes, sound, total, h => by
    simp only [meanTest, Logged.gives_bind] at h ⊢
    obtain ⟨verdict, hverdict, h⟩ := h
    refine ⟨verdict, Expr.test_placed hc (hes e List.mem_cons_self)
      (sound e List.mem_cons_self) _ _ hverdict, ?_⟩
    cases verdict with
    | none => exact h
    | some score =>
      exact meanTest_placed hc position size count es
        (fun e' he' => hes e' (List.mem_cons_of_mem _ he'))
        (fun e' he' => sound e' (List.mem_cons_of_mem _ he')) h

theorem filterInTurn_steady (hc : call.IgnoresFocus) (count : Nat) : (es : List Expr) →
    (∀ e ∈ es, e.isPositional = false) → {items kept : List (Item × Number)} →
    (∀ entry ∈ items, SoundOn call env es entry.1) → (filterInTurn call env items es).Gives kept →
      (∀ entry ∈ items, ∃ mean, (meanAlone call env count es entry).Gives mean) ∧
      (kept.map fun entry =>
        (entry.1, if count = 0 then Number.zero else entry.2.divideBy .double count)) =
      items.filterMap fun entry =>
      (answer (meanAlone call env count es entry)).map fun mean => (entry.1, mean)
  | [], _, items, kept, _, h => by
    simp only [filterInTurn, Logged.gives_pure] at h
    subst h
    refine ⟨fun entry _ => ⟨_, by rw [meanAlone, meanTest, Logged.gives_pure]⟩, ?_⟩
    rw [← List.filterMap_eq_map]
    rfl
  | e :: es, hes, items, kept, sound, h => by
    simp only [filterInTurn, Logged.gives_bind] at h
    obtain ⟨passed, hpassed, hkept⟩ := h
    obtain ⟨htests, rfl⟩ := keepScored_steady (fun item => e.test call (env.focusAlone item)) items
      (fun entry hentry position verdict =>
        Expr.test_steady hc (hes e List.mem_cons_self)
          (sound entry hentry e List.mem_cons_self _ _)) hpassed
    obtain ⟨hmeans, hkept⟩ :=
      filterInTurn_steady hc count es (fun e' he' => hes e' (List.mem_cons_of_mem _ he'))
      (fun entry hentry => by
        obtain ⟨entry', hentry', heq⟩ := List.mem_filterMap.mp hentry
        obtain ⟨score, -, rfl⟩ := Option.map_eq_some_iff.mp heq
        exact (sound entry' hentry').tail) hkept
    -- the mean over all predicates is that over the others, from the score of the first
    have first : ∀ entry ∈ items, ∀ verdict, (e.test call (env.focusAlone entry.1)).Gives verdict →
        ∃ mean, (meanAlone call env count (e :: es) entry).Gives mean ∧
          mean = verdict.bind fun score =>
            answer (meanAlone call env count es (entry.1, entry.2.add .double score)) := by
      intro entry hentry verdict hverdict
      cases verdict with
      | none =>
        refine ⟨none, ?_, rfl⟩
        rw [meanAlone, meanTest, Logged.gives_bind]
        exact ⟨none, hverdict, Logged.gives_pure.mpr rfl⟩
      | some score =>
        obtain ⟨mean, hmean⟩ := hmeans (entry.1, entry.2.add .double score) (by
          rw [List.mem_filterMap]
          exact ⟨entry, hentry, by rw [answer_of_gives hverdict]; rfl⟩)
        refine ⟨mean, ?_, (answer_of_gives hmean).symm⟩
        rw [meanAlone, meanTest, Logged.gives_bind]
        exact ⟨some score, hverdict, hmean⟩
    refine ⟨fun entry hentry => ?_, ?_⟩
    · obtain ⟨verdict, hverdict⟩ := htests entry hentry
      obtain ⟨mean, hmean, -⟩ := first entry hentry verdict hverdict
      exact ⟨mean, hmean⟩
    · rw [hkept, List.filterMap_filterMap]
      refine List.filterMap_congr fun entry hentry => ?_
      obtain ⟨verdict, hverdict⟩ := htests entry hentry
      obtain ⟨mean, hmean, heq⟩ := first entry hentry verdict hverdict
      rw [answer_of_gives hverdict, answer_of_gives hmean, heq]
      cases verdict with
      | none => rfl
      | some score => simp

/-! ### The strategy that is chosen -/

namespace Cursor

/-- The items of a cursor that pass all predicates, by the strategy that the predicates allow. -/
def filterWith (call : Caller) (env : Env) (predicates : List Expr) (c : Cursor) : Run Cursor :=
  c.filterBy env predicates (fun env => meanTest call env predicates.length .zero predicates)
    (fun items => filterInTurn call env items predicates)

/-- The items of a cursor that pass predicate after predicate, all of them being there before the
first is applied. -/
def filterSequentially (call : Caller) (env : Env) (predicates : List Expr) (c : Cursor) :
    Run Cursor := do
  let items ← c.drain env.scoring
  let kept ← filterInTurn call env (items.map fun item => (item, .zero)) predicates
  return ofScored (meanScores env.scoring predicates.length kept)

end Cursor

theorem filterWith_eq_of_steady {predicates : List Expr} {c : Cursor} (hne : predicates ≠ [])
    (h : predicates.any Expr.isPositional = false) :
    c.filterWith call env predicates = pure (c.select
      (fun scoring position item =>
        meanTest call (env.focusOn none scoring position item) predicates.length .zero
        predicates) 0) := by
  have hne' : predicates.isEmpty = false := by simpa using hne
  simp only [Cursor.filterWith, Cursor.filterBy, hne', h, Bool.not_false, if_true,
    Bool.false_eq_true, if_false]

theorem filterWith_eq_of_window {predicates : List Expr} {c : Cursor} {w : Window}
    (h : predicates.any Expr.isPositional = true) (hw : leadingWindow? predicates = some w) :
    c.filterWith call env predicates = pure (c.window w
      (fun scoring position item =>
        meanTest call (env.focusOn none scoring position item) predicates.length .zero
        predicates) 0) := by
  have hne : predicates.isEmpty = false := by
    cases predicates with
    | nil => simp at h
    | cons e es => rfl
  simp only [Cursor.filterWith, Cursor.filterBy, hne, h, hw, Bool.not_true,
    Bool.false_eq_true, if_false]

theorem filterWith_eq_sequentially {predicates : List Expr} {c : Cursor}
    (h : predicates.any Expr.isPositional = true) (hw : leadingWindow? predicates = none) :
    c.filterWith call env predicates = c.filterSequentially call env predicates := by
  have hne : predicates.isEmpty = false := by
    cases predicates with
    | nil => simp at h
    | cons e es => rfl
  simp only [Cursor.filterWith, Cursor.filterBy, Cursor.filterSequentially, hne, h, hw,
    Bool.not_true, Bool.false_eq_true, if_false]

theorem meanScores_eq_passed {scoring : Bool} {count : Nat} (hcount : count ≠ 0)
    {kept : List (Item × Number)}
    {entries : List (Item × Option Number)} {verdict : Item → Option Number}
    (h : (kept.map fun entry => (entry.1, if count = 0 then Number.zero else entry.2.divideBy .double count)) =
      entries.filterMap fun entry => (verdict entry.1).map fun mean => (entry.1, mean)) :
    meanScores scoring count kept = entries.filterMap (passed scoring verdict) := by
  have := congrArg (List.map fun entry : Item × Number =>
    (entry.1, if scoring then some entry.2 else none)) h
  simp only [List.map_map, List.map_filterMap, Option.map_map, Function.comp_def,
    if_neg hcount] at this
  exact this

theorem filterSequentially_gives {predicates : List Expr} {c kept : Cursor}
    (h : (c.filterSequentially call env predicates).Gives kept) :
    ∃ entries, c.Yields env.scoring entries ∧ entries.length ≤ memoryLimit ∧ ∃ scored,
      (filterInTurn call env (entries.map fun entry => (entry.1, .zero)) predicates).Gives scored ∧
        kept.Yields env.scoring (meanScores env.scoring predicates.length scored) := by
  simp only [Cursor.filterSequentially, Logged.gives_bind, Cursor.drain_iff, Logged.gives_pure] at h
  obtain ⟨items, ⟨entries, hyields, hlimit, rfl⟩, scored, hscored, rfl⟩ := h
  rw [List.map_map] at hscored
  exact ⟨entries, hyields, hlimit, scored, hscored, Cursor.yields_ofScored _⟩

def verdictAlone (call : Caller) (env : Env) (count : Nat) (es : List Expr) (total : Number)
    (item : Item) : Option Number :=
  answer (meanAlone call env count es (item, total))

theorem filterInTurn_verdicts (hc : call.IgnoresFocus) {count : Nat} (hcount : count ≠ 0)
    {es : List Expr} (hes : ∀ e ∈ es, e.isPositional = false) (total : Number)
    {entries : List (Item × Option Number)} (sound : ∀ entry ∈ entries, SoundOn call env es entry.1)
    {kept : List (Item × Number)}
    (h : (filterInTurn call env (entries.map fun entry => (entry.1, total)) es).Gives kept) :
    (∀ entry ∈ entries, ∀ position,
      (meanTest call (env.focusOn none env.scoring position entry.1) count total es).Gives
      (verdictAlone call env count es total entry.1)) ∧
      meanScores env.scoring count kept =
        entries.filterMap (passed env.scoring (verdictAlone call env count es total)) := by
  have sound' : ∀ entry ∈ entries.map fun entry => (entry.1, total),
      SoundOn call env es entry.1 := by
    intro entry hentry
    obtain ⟨entry', hentry', rfl⟩ := List.mem_map.mp hentry
    exact sound entry' hentry'
  obtain ⟨hmeans, hkept⟩ := filterInTurn_steady hc count es hes sound' h
  refine ⟨fun entry hentry position => ?_, meanScores_eq_passed hcount ?_⟩
  · obtain ⟨mean, hmean⟩ := hmeans (entry.1, total) (List.mem_map_of_mem hentry)
    rw [verdictAlone, answer_of_gives hmean]
    exact meanTest_placed hc position none count es hes
      (fun e he => sound entry hentry e he _ _) hmean
  · rw [hkept, List.filterMap_map]
    rfl

/-- Without a positional predicate, judging items as they come keeps what filtering in turn
keeps. -/
theorem yields_steady (hc : call.IgnoresFocus) {predicates : List Expr} (hne : predicates ≠ [])
    (hsteady : ∀ e ∈ predicates, e.isPositional = false) {c : Cursor}
    {entries : List (Item × Option Number)} (hyields : c.Yields env.scoring entries)
    (sound : ∀ entry ∈ entries, SoundOn call env predicates entry.1) {scored : List (Item × Number)}
    (hscored : (filterInTurn call env (entries.map fun entry => (entry.1, .zero)) predicates).Gives
      scored) : (c.select (fun scoring position item =>
        meanTest call (env.focusOn none scoring position item) predicates.length .zero predicates)
          0).Yields env.scoring (meanScores env.scoring predicates.length scored) := by
  obtain ⟨hverdicts, hkept⟩ :=
    filterInTurn_verdicts hc (mt List.length_eq_zero_iff.mp hne) hsteady .zero sound hscored
  rw [hkept]
  exact Cursor.yields_select hyields hverdicts

/-- With a window in front of predicates that are not positional, judging the items in the window
keeps what filtering in turn keeps. -/
theorem yields_window (hc : call.IgnoresFocus) {w : Window} {type : StaticType}
    {location : Option Location} {es : List Expr} (hes : ∀ e ∈ es, e.isPositional = false)
    {c : Cursor} {entries : List (Item × Option Number)} (hyields : c.Yields env.scoring entries)
    (sound : ∀ entry ∈ entries, SoundOn call env es entry.1) {scored : List (Item × Number)}
    (hscored : (filterInTurn call env (entries.map fun entry => (entry.1, .zero))
      (⟨.position w, type, location⟩ :: es)).Gives scored) :
    (c.window w (fun scoring position item =>
        meanTest call (env.focusOn none scoring position item) (es.length + 1) .zero
          (⟨.position w, type, location⟩ :: es)) 0).Yields env.scoring (meanScores env.scoring
          (es.length + 1) scored) := by
  simp only [filterInTurn, Expr.test_position, keepScored_window, Logged.pure_bind] at hscored
  rw [Window.part_map, List.map_map] at hscored
  obtain ⟨hverdicts, hkept⟩ := filterInTurn_verdicts hc (Nat.succ_ne_zero es.length) hes
    (Number.zero.add .double .zero)
    (fun entry hentry => sound entry (Window.mem_of_mem_part _ hentry)) hscored
  rw [hkept]
  refine Cursor.yields_window hyields fun entry hentry position hin => ?_
  simp only [meanTest, Expr.test_position, Logged.pure_bind]
  rw [if_pos hin]
  exact hverdicts entry hentry position

/-- The chosen strategy yields what filtering in turn leaves of the items. -/
theorem filterWith_yields (hc : call.IgnoresFocus) {predicates : List Expr} (hne : predicates ≠ [])
    {c : Cursor} {entries : List (Item × Option Number)} (hyields : c.Yields env.scoring entries)
    (hlimit : entries.length ≤ memoryLimit)
    (sound : ∀ entry ∈ entries, SoundOn call env predicates entry.1) {scored : List (Item × Number)}
    (hscored : (filterInTurn call env (entries.map fun entry => (entry.1, .zero)) predicates).Gives
      scored) : ∃ chosen, (c.filterWith call env predicates).Gives chosen ∧
      chosen.Yields env.scoring (meanScores env.scoring predicates.length scored) := by
  by_cases hpositional : predicates.any Expr.isPositional = true
  · cases hw : leadingWindow? predicates with
    | none =>
      rw [filterWith_eq_sequentially hpositional hw]
      refine ⟨.ofScored (meanScores env.scoring predicates.length scored), ?_,
        Cursor.yields_ofScored _⟩
      simp only [Cursor.filterSequentially, Logged.gives_bind, Cursor.drain_iff, Logged.gives_pure]
      exact ⟨_, ⟨entries, hyields, hlimit, rfl⟩, scored, by rw [List.map_map]; exact hscored, rfl⟩
    | some w =>
      rw [filterWith_eq_of_window hpositional hw]
      obtain ⟨type, location, es, rfl, hes⟩ := leadingWindow?_some hw
      exact ⟨_, Logged.gives_pure.mpr rfl,
        yields_window hc hes hyields (fun entry hentry => (sound entry hentry).tail) hscored⟩
  · simp only [Bool.not_eq_true] at hpositional
    rw [filterWith_eq_of_steady hne hpositional]
    refine ⟨_, Logged.gives_pure.mpr rfl,
      yields_steady hc hne (fun e he => ?_) hyields sound hscored⟩
    simpa using List.any_eq_false.mp hpositional e he

/-- The strategy that a filter chooses agrees with applying predicate after predicate to all items:
if the static types of the predicates are sound on the items of the input and that ends without a
failure, the chosen cursor has the same items in the same order and, if there is a predicate at all,
the same scores. A cursor for a leading window does not pull its input any more once it was
delivered the last item of the window: whatever the input would do then, the cursor is the same. -/
theorem filterWith_agrees (depth : Nat) (env : Env) (predicates : List Expr) (c : Cursor) :
    ((∀ item score, (.ok item, score) ∈ c.deliveries env.scoring →
      SoundOn (callWithin depth) env predicates item) →
      ∀ kept, (c.filterSequentially (callWithin depth) env predicates).Gives kept →
        ∃ chosen entries, (c.filterWith (callWithin depth) env predicates).Gives chosen ∧
        kept.Yields env.scoring entries ∧
          (chosen.drain env.scoring).Gives (entries.map Prod.fst) ∧
          (predicates ≠ [] → chosen.Yields env.scoring entries)) ∧
    ∀ w judge other, (c.cut other w.last).window w judge 0 = c.window w judge 0 := by
  refine ⟨fun sound kept h => ?_, fun w judge other => Cursor.window_cut_from c 0⟩
  have hc := callWithin_ignoresFocus depth
  obtain ⟨entries, hyields, hlimit, scored, hscored, hkept⟩ := filterSequentially_gives h
  have sound : ∀ entry ∈ entries, SoundOn (callWithin depth) env predicates entry.1 :=
      fun entry hentry =>
    sound entry.1 entry.2 (by rw [hyields]; exact List.mem_map_of_mem hentry)
  by_cases hne : predicates = []
  · subst hne
    refine ⟨c, _, Logged.gives_pure.mpr rfl, hkept,
      Cursor.drain_iff.mpr ⟨entries, hyields, hlimit, ?_⟩, fun h => absurd rfl h⟩
    simp only [filterInTurn, Logged.gives_pure] at hscored
    simp [← hscored, meanScores, Function.comp_def]
  obtain ⟨chosen, hchosen, hentries⟩ := filterWith_yields hc hne hyields hlimit sound hscored
  have hfewer : (meanScores env.scoring predicates.length scored).length ≤ entries.length := by
    simpa [meanScores] using filterInTurn_length_le hscored
  exact ⟨chosen, _, hchosen, hkept,
    Cursor.drain_iff.mpr ⟨_, hentries, Nat.le_trans hfewer hlimit, rfl⟩, fun _ => hentries⟩

/-- The second of three integers passes a window and a constant, whichever way they are applied. -/
theorem filterWith_agrees_second_of_three :
    let env : Env := .ofContext { forest := .empty false }
    let predicates : List Expr :=
      [.of (.position ⟨2, 2, by decide, by decide, by decide⟩), .ofBool true]
    let c : Cursor := .ofList [.atomic (.integer 10), .atomic (.integer 20), .atomic (.integer 30)]
    let kept : Cursor := .ofScored [(.atomic (.integer 20), none)]
    (c.filterSequentially (callWithin 0) env predicates).Gives kept ∧
      ∃ chosen entries, (c.filterWith (callWithin 0) env predicates).Gives chosen ∧
        kept.Yields false entries ∧
        (chosen.drain false).Gives (entries.map Prod.fst) ∧
        (predicates ≠ [] → chosen.Yields false entries) := by
  intro env predicates c kept
  have hkept : (c.filterSequentially (callWithin 0) env predicates).Gives kept := rfl
  refine ⟨hkept, (filterWith_agrees 0 env predicates c).1
    (fun item score _ e he size position items h => ?_) kept hkept⟩
  simp only [predicates, List.mem_cons, List.not_mem_nil, or_false] at he
  rcases he with rfl | rfl
  · rw [show items = [.atomic (.boolean (Window.contains ⟨2, 2, by decide, by decide, by decide⟩ position))] from h.unique rfl]
    exact .boolean _
  · rw [show items = [.atomic (.boolean true)] from h.unique rfl]
    exact .boolean _

end TreeQuery
