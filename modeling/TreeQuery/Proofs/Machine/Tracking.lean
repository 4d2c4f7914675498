import TreeQuery.Proofs.Machine.Cursor
/-!
# Live cursors that track cursors

A live cursor tracks a cursor if its answers are the replies of that cursor, whatever is in focus
and whether scores are wanted when it is pulled, and if every pull leaves the state as it was. The
cursor has no access to the state, so what a live cursor answers is settled when it is opened. All
ways to build live cursors keep this, and what consumes them follows what consumes the cursors that
they track.
-/

namespace TreeQuery

open Machine (Follows Agree)

def Env.put (env : Env) (focus : Focus) (scoring : Bool) : Env := { env with focus, scoring }

mutual

/-- Whether a live cursor answers as a cursor replies, wherever the focus is when it is pulled. -/
def Live.Tracks (s : Env) : Live → Cursor → Prop
  | .mk pull, c => ∀ focus scoring, (pull (s.put focus scoring)).Tracks (s.put focus scoring)
      (c.pull scoring)

def Answer.Tracks (s : Env) : Answer → Reply → Prop
  | .ended log s', .ended log' _ => s' = s ∧ log = log'
  | .yielded log outcome score s' rest, .yielded log' outcome' score' rest' =>
    s' = s ∧ log = log' ∧ outcome = outcome' ∧ score = score' ∧ rest.Tracks s rest'
  | _, _ => False

end

variable {s : Env}

namespace Live

theorem tracks_put {live : Live} {c : Cursor} {focus : Focus} {scoring : Bool} :
    live.Tracks (s.put focus scoring) c ↔ live.Tracks s c := by
  obtain ⟨pull⟩ := live
  exact Iff.rfl

theorem Tracks.pull {live : Live} {c : Cursor} (h : live.Tracks s c) :
    (live.pull s).Tracks s (c.pull s.scoring) := by
  obtain ⟨pull⟩ := live
  exact h s.focus s.scoring

theorem tracks_ofCounted (items : List (Item × Option Number)) (n : Nat) :
    (ofScored items).Tracks s (.ofCounted n items) := by
  induction items generalizing n with
  | nil => exact fun _ _ => ⟨rfl, rfl⟩
  | cons entry items ih => exact fun _ _ => ⟨rfl, rfl, rfl, rfl, tracks_put.mpr (ih (n - 1))⟩

theorem tracks_ofScored (items : List (Item × Option Number)) :
    (ofScored items).Tracks s (.ofScored items) :=
  tracks_ofCounted items items.length

theorem tracks_ofPlain (items : List Item) (n : Nat) :
    (ofList items).Tracks s (.ofPlain n items) := by
  induction items generalizing n with
  | nil => exact fun _ _ => ⟨rfl, rfl⟩
  | cons item items ih => exact fun _ _ => ⟨rfl, rfl, rfl, rfl, tracks_put.mpr (ih (n - 1))⟩

theorem tracks_ofList (items : List Item) : (ofList items).Tracks s (.ofList items) :=
  tracks_ofPlain items items.length

theorem tracks_single (item : Item) : (single item).Tracks s (.single item) := tracks_ofList [item]

theorem tracks_ofBool (b : Bool) : (ofBool b).Tracks s (.ofBool b) := tracks_single _

theorem tracks_ofNat (n : Nat) : (ofNat n).Tracks s (.ofNat n) := tracks_single _

end Live

theorem Answer.Tracks.after (log : List Trace) :
    {a : Answer} → {r : Reply} → a.Tracks s r → (a.after log).Tracks s (r.after log)
  | .ended .., .ended .., h => ⟨h.1, congrArg (log ++ ·) h.2⟩
  | .yielded .., .yielded .., h => ⟨h.1, congrArg (log ++ ·) h.2.1, h.2.2⟩
  | .ended .., .yielded .., h | .yielded .., .ended .., h => h.elim

/-! ### Chains -/

theorem Answer.Tracks.append {next : Live} {c : Cursor} (hnext : next.Tracks s c) :
    {a : Answer} → {r : Reply} →
    {focus : Focus} → {scoring : Bool} → a.Tracks (s.put focus scoring) r →
    (a.append next).Tracks (s.put focus scoring) (r.append c scoring)
  | .ended log _, .ended _ _, focus, scoring, h => by
    obtain ⟨rfl, rfl⟩ := h
    exact (Live.tracks_put.mpr hnext).pull.after log
  | .yielded _ _ _ _ (.mk pull), .yielded _ _ _ (.mk _ pull'), focus, scoring, h => by
    obtain ⟨rfl, rfl, rfl, rfl, h⟩ := h
    exact ⟨rfl, rfl, rfl, rfl, fun focus scoring => Answer.Tracks.append hnext (h focus scoring)⟩
  | .ended .., .yielded .., _, _, h | .yielded .., .ended .., _, _, h => h.elim

section Chain

variable {link : Link} {start : Nat → Item → Machine Live}
  (hstart : ∀ focus scoring pos item,
    Follows (s.put focus scoring) (Live.Tracks s) (start pos item) (link.start scoring pos item))

include hstart

theorem Answer.Tracks.chain : {a : Answer} → {r : Reply} → {focus : Focus} →
    {scoring : Bool} → (pos : Nat) →
    a.Tracks (s.put focus scoring) r →
    (a.chain link.accept start pos).Tracks (s.put focus scoring) (r.chain link pos scoring)
  | .ended .., .ended .., focus, scoring, pos, h => h
  | .yielded _ (.error e) _ _ (.mk pull), .yielded _ _ _ (.mk _ pull'), focus, scoring, pos, h => by
    obtain ⟨rfl, rfl, rfl, rfl, h⟩ := h
    exact ⟨rfl, rfl, rfl, rfl, fun focus scoring => Answer.Tracks.chain pos (h focus scoring)⟩
  | .yielded log (.ok item) _ _ (.mk pull), .yielded _ _ _ (.mk hint pull'), focus,
      scoring, pos, h => by
    obtain ⟨rfl, rfl, rfl, rfl, h⟩ := h
    have hrest (pos : Nat) : ((Live.mk pull).chain link.accept start pos).Tracks s
        ((Cursor.mk hint pull').chain link pos) :=
      fun focus scoring => Answer.Tracks.chain pos (h focus scoring)
    simp only [Answer.chain, Reply.chain]
    cases link.accept item with
    | error e => exact ⟨rfl, rfl, rfl, rfl, Live.tracks_put.mpr (hrest pos)⟩
    | ok u =>
      obtain ⟨hstate, hlog, houtcome⟩ := hstart focus scoring (pos + 1) item
      simp only [hstate, hlog]
      obtain ⟨e, hopened, hopened'⟩ |
        ⟨current, current', hopened, hopened', hcurrent⟩ := houtcome.cases
      · rw [hopened, hopened']
        exact ⟨rfl, rfl, rfl, rfl, Live.tracks_put.mpr (hrest (pos + 1))⟩
      · rw [hopened, hopened']
        have hcurrent : current.Tracks (s.put focus scoring) current' :=
          Live.tracks_put.mpr hcurrent
        exact (Answer.Tracks.append (hrest (pos + 1)) hcurrent.pull).after _
  | .ended .., .yielded .., _, _, _, h | .yielded _ (.ok _) _ _ _, .ended .., _, _, _, h
  | .yielded _ (.error _) _ _ _, .ended .., _, _, _, h => h.elim

end Chain

theorem Live.Tracks.chain {live : Live} {c : Cursor} (h : live.Tracks s c)
    {accept : Item → Except Failure Unit} {start : Nat → Item → Machine Live}
    {start' : Bool → Nat → Item → Run Cursor} (hstart : ∀ focus scoring pos item,
      Follows (s.put focus scoring) (Live.Tracks s) (start pos item) (start' scoring pos item)) :
    (live.chain accept start 0).Tracks s (c.chain ⟨accept, start'⟩ 0) := by
  obtain ⟨pull⟩ := live
  obtain ⟨hint, pull'⟩ := c
  intro focus scoring
  have hlink : ∀ focus scoring pos item, Follows (s.put focus scoring) (Live.Tracks s)
    (start pos item)
      ((⟨accept, start'⟩ : Link).start scoring pos item) := hstart
  exact Answer.Tracks.chain hlink 0 (h focus scoring)

/-! ### Filters and checks -/

section Filter

variable {judge : Nat → Item → Machine (Option Number)} {judge' : Judgement}
  (hjudge : ∀ focus scoring pos item,
    judge pos item (s.put focus scoring) = (judge' scoring pos item, s.put focus scoring))

include hjudge

theorem Answer.Tracks.select : {a : Answer} → {r : Reply} → {focus : Focus} →
    {scoring : Bool} → (pos : Nat) →
    (earlier : List Trace) → a.Tracks (s.put focus scoring) r →
    (a.select judge pos earlier).Tracks (s.put focus scoring) (r.select judge' pos scoring earlier)
  | .ended .., .ended .., focus, scoring, pos, earlier, h =>
    ⟨h.1, congrArg (earlier.reverse ++ ·) h.2⟩
  | .yielded log (.error e) _ _ (.mk pull), .yielded _ _ _ (.mk _ pull'), focus, scoring, pos,
      earlier, h => by
    obtain ⟨rfl, rfl, rfl, rfl, h⟩ := h
    exact ⟨rfl, rfl, rfl, rfl, fun focus scoring => Answer.Tracks.select pos [] (h focus scoring)⟩
  | .yielded log (.ok item) _ _ (.mk pull), .yielded _ _ _ (.mk hint pull'), focus, scoring, pos,
      earlier, h => by
    obtain ⟨rfl, rfl, rfl, rfl, h⟩ := h
    have hrest : ((Live.mk pull).select judge (pos + 1)).Tracks s
        ((Cursor.mk hint pull').select judge' (pos + 1)) :=
      fun focus scoring => Answer.Tracks.select (pos + 1) [] (h focus scoring)
    simp only [Answer.select, Reply.select, hjudge]
    cases (judge' scoring (pos + 1) item).outcome with
    | error e => exact ⟨rfl, rfl, rfl, rfl, Live.tracks_put.mpr hrest⟩
    | ok verdict =>
      cases verdict with
      | none => exact Answer.Tracks.select (pos + 1) _ (h focus scoring)
      | some score => exact ⟨rfl, rfl, rfl, rfl, Live.tracks_put.mpr hrest⟩
  | .ended .., .yielded .., _, _, _, _, h | .yielded _ (.ok _) _ _ _, .ended .., _, _, _, _, h
  | .yielded _ (.error _) _ _ _, .ended .., _, _, _, _, h => h.elim

theorem Live.Tracks.select {live : Live} {c : Cursor} (h : live.Tracks s c) (pos : Nat) :
    (live.select judge pos).Tracks s (c.select judge' pos) := by
  obtain ⟨pull⟩ := live
  obtain ⟨hint, pull'⟩ := c
  exact fun focus scoring => Answer.Tracks.select hjudge pos [] (h focus scoring)

theorem Answer.Tracks.window {w : Window} :
    {a : Answer} → {r : Reply} → {focus : Focus} → {scoring : Bool} → (pos : Nat) →
    (earlier : List Trace) → a.Tracks (s.put focus scoring) r →
    (a.window w judge pos earlier).Tracks (s.put focus scoring)
      (r.window w judge' pos scoring earlier)
  | .ended .., .ended .., focus, scoring, pos, earlier, h =>
    ⟨h.1, congrArg (earlier.reverse ++ ·) h.2⟩
  | .yielded log (.error e) _ _ (.mk pull), .yielded _ _ _ (.mk hint pull'), focus, scoring, pos,
      earlier, h => by
    obtain ⟨rfl, rfl, rfl, rfl, h⟩ := h
    refine ⟨rfl, rfl, rfl, rfl, fun focus scoring => ?_⟩
    by_cases hpos : pos < w.last
    · simp only [if_pos hpos, Cursor.window, Cursor.pull]
      exact Answer.Tracks.window pos [] (h focus scoring)
    · simp only [if_neg hpos, Cursor.window, Cursor.pull]
      exact ⟨rfl, rfl⟩
  | .yielded log (.ok item) _ _ (.mk pull), .yielded _ _ _ (.mk hint pull'), focus, scoring, pos,
      earlier, h => by
    obtain ⟨rfl, rfl, rfl, rfl, h⟩ := h
    have hrest : ((Live.mk pull).window w judge (pos + 1)).Tracks s
        ((Cursor.mk hint pull').window w judge' (pos + 1)) := by
      intro focus scoring
      by_cases hpos : pos + 1 < w.last
      · simp only [if_pos hpos, Cursor.window, Cursor.pull]
        exact Answer.Tracks.window (pos + 1) [] (h focus scoring)
      · simp only [if_neg hpos, Cursor.window, Cursor.pull]
        exact ⟨rfl, rfl⟩
    have hverdict : (if pos + 1 < w.first then pure none else judge (pos + 1) item)
      (s.put focus scoring) =
        (if pos + 1 < w.first then pure none else judge' scoring (pos + 1) item,
          s.put focus scoring) := by
      by_cases hpos : pos + 1 < w.first
      · rw [if_pos hpos, if_pos hpos]
        rfl
      · rw [if_neg hpos, if_neg hpos, hjudge]
    simp only [Answer.window, Reply.window, hverdict]
    cases (if pos + 1 < w.first then pure none else
      judge' scoring (pos + 1) item : Run (Option Number)).outcome with
    | error e => exact ⟨rfl, rfl, rfl, rfl, Live.tracks_put.mpr hrest⟩
    | ok verdict =>
      cases verdict with
      | some score => exact ⟨rfl, rfl, rfl, rfl, Live.tracks_put.mpr hrest⟩
      | none =>
        by_cases hpos : pos + 1 < w.last
        · simp only [if_pos hpos]
          exact Answer.Tracks.window (pos + 1) _ (h focus scoring)
        · simp only [if_neg hpos]
          exact ⟨rfl, rfl⟩
  | .ended .., .yielded .., _, _, _, _, h | .yielded _ (.ok _) _ _ _, .ended .., _, _, _, _, h
  | .yielded _ (.error _) _ _ _, .ended .., _, _, _, _, h => h.elim

theorem Live.Tracks.window {w : Window} {live : Live} {c : Cursor} (h : live.Tracks s c) :
    (live.window w judge 0).Tracks s (c.window w judge' 0) := by
  obtain ⟨pull⟩ := live
  obtain ⟨hint, pull'⟩ := c
  intro focus scoring
  by_cases hpos : 0 < w.last
  · simp only [if_pos hpos, Cursor.window, Cursor.pull]
    exact Answer.Tracks.window hjudge 0 [] (h focus scoring)
  · simp only [if_neg hpos, Cursor.window, Cursor.pull]
    exact ⟨rfl, rfl⟩

end Filter

theorem Answer.Tracks.check {t : TypeCheck} :
    {a : Answer} → {r : Reply} → {focus : Focus} → {scoring : Bool} →
    (count : Nat) → a.Tracks (s.put focus scoring) r →
    (a.check t count).Tracks (s.put focus scoring) (r.check t s.forest count)
  | .ended .., .ended .., focus, scoring, count, h => by
    obtain ⟨rfl, rfl⟩ := h
    simp only [Answer.check, Reply.check]
    cases t.finish count with
    | error e => exact ⟨rfl, rfl, rfl, rfl, fun _ _ => ⟨rfl, rfl⟩⟩
    | ok u => exact ⟨rfl, rfl⟩
  | .yielded log (.error e) _ _ rest, .yielded _ _ _ rest', focus, scoring, count, h => by
    obtain ⟨rfl, rfl, rfl, rfl, -⟩ := h
    exact ⟨rfl, rfl, rfl, rfl, fun _ _ => ⟨rfl, rfl⟩⟩
  | .yielded log (.ok item) _ _ (.mk pull), .yielded _ _ _ (.mk hint pull'), focus,
      scoring, count, h => by
    obtain ⟨rfl, rfl, rfl, rfl, h⟩ := h
    have hforest : (s.put focus scoring).forest = s.forest := rfl
    simp only [Answer.check, Reply.check, hforest]
    cases (t.next s.forest count item).outcome with
    | error e => exact ⟨rfl, rfl, rfl, rfl, fun _ _ => ⟨rfl, rfl⟩⟩
    | ok item =>
      exact ⟨rfl, rfl, rfl, rfl, fun focus scoring =>
        Answer.Tracks.check (count + 1) (h focus scoring)⟩
  | .ended .., .yielded .., _, _, _, h | .yielded _ (.ok _) _ _ _, .ended .., _, _, _, h
  | .yielded _ (.error _) _ _ _, .ended .., _, _, _, h => h.elim

theorem Live.Tracks.check {t : TypeCheck} {live : Live} {c : Cursor} (h : live.Tracks s c) :
    (live.check t 0).Tracks s (c.check t s.forest 0) := by
  obtain ⟨pull⟩ := live
  obtain ⟨hint, pull'⟩ := c
  exact fun focus scoring => Answer.Tracks.check 0 (h focus scoring)

/-! ### Consuming -/

theorem Answer.Tracks.fold {β : Type} {step : β → Item → Option Number → Run β} :
    {a : Answer} → {r : Reply} → {s : Env} → (b : β) →
    (earlier : List Trace) → a.Tracks s r →
    a.fold step b earlier = (r.fold s.scoring step b earlier, s)
  | .ended .., .ended .., s, b, earlier, h => by
    obtain ⟨rfl, rfl⟩ := h
    rfl
  | .yielded log (.error e) _ _ _, .yielded _ _ _ _, s, b, earlier, h => by
    obtain ⟨rfl, rfl, rfl, rfl, -⟩ := h
    rfl
  | .yielded log (.ok item) score _ (.mk pull), .yielded _ _ _ (.mk hint pull'), s, b,
      earlier, h => by
    obtain ⟨rfl, rfl, rfl, rfl, h⟩ := h
    simp only [Answer.fold, Reply.fold]
    obtain ⟨own, e | b'⟩ := step b item score
    · rfl
    · exact Answer.Tracks.fold b' _ h.pull
  | .ended .., .yielded .., _, _, _, h | .yielded _ (.ok _) _ _ _, .ended .., _, _, _, h
  | .yielded _ (.error _) _ _ _, .ended .., _, _, _, h => h.elim

namespace Live.Tracks

variable {live : Live} {c : Cursor} {l : Option Location} (h : live.Tracks s c)

include h

theorem fold {β : Type} (step : β → Item → Option Number → Run β) (b : β) :
    Follows s Eq (live.fold step b) (c.fold s.scoring step b) :=
    .of_eq (Answer.Tracks.fold b [] h.pull)

theorem drain : Follows s Eq live.drain (c.drain s.scoring) :=
  (h.fold _ []).seq fun items => .look fun _ => keep items

theorem drainScored : Follows s Eq live.drainScored (c.drainScored s.scoring) :=
  (h.fold _ []).seq fun items => .look fun _ => keep items

theorem count : Follows s Eq live.count (c.count s.scoring) := h.fold _ 0

theorem first? :
    Follows s (Option.Rel fun found found' => found.1 = found'.1 ∧ found.2.Tracks s found'.2)
      live.first? (c.first? s.scoring) := by
  have hpull := h.pull
  unfold Live.first? Cursor.first?
  cases hlive : live.pull s with
  | ended log s' =>
    cases hc : c.pull s.scoring with
    | yielded _ _ _ _ => rw [hlive, hc] at hpull; exact hpull.elim
    | ended log' hint =>
      rw [hlive, hc] at hpull
      obtain ⟨rfl, rfl⟩ := hpull
      exact ⟨by rw [hlive], by rw [hlive], by rw [hlive]; exact .none⟩
  | yielded log outcome score s' rest =>
    cases hc : c.pull s.scoring with
    | ended _ _ => rw [hlive, hc] at hpull; exact hpull.elim
    | yielded log' outcome' score' rest' =>
      rw [hlive, hc] at hpull
      obtain ⟨rfl, rfl, rfl, rfl, hrest⟩ := hpull
      cases outcome with
      | error e => exact ⟨by rw [hlive], by rw [hlive], by rw [hlive]; rfl⟩
      | ok item => exact ⟨by rw [hlive], by rw [hlive], by rw [hlive]; exact .some ⟨rfl, hrest⟩⟩

theorem expectEnd : Follows s Eq live.expectEnd (c.expectEnd s.scoring) := by
  refine h.first?.bind fun found found' hfound => ?_
  cases hfound with
  | none => exact .pure rfl
  | some _ => exact .look _

theorem decider : Follows s Eq (live.decider l) (c.decider s.scoring l) := by
  refine h.first?.bind fun found found' hfound => ?_
  cases hfound with
  | none => exact .pure rfl
  | @some found found' hfound =>
    obtain ⟨item, rest⟩ := found
    obtain ⟨item', rest'⟩ := found'
    obtain ⟨rfl, hrest⟩ := hfound
    cases item with
    | node n => exact .pure rfl
    | atomic v => exact (hrest.expectEnd.locate l).seq fun _ => .pure rfl
    | function f => exact .look _

theorem truth : Follows s Eq (live.truth l) (c.truth s.scoring l) := by
  refine h.decider.seq fun verdict => ?_
  rcases verdict with _ | _ | _ | _ <;> exact .pure rfl

theorem predicateTruth {position : Nat} :
    Follows s Eq (live.predicateTruth l position) (c.predicateTruth s.scoring l position) := by
  refine h.decider.seq fun verdict => ?_
  rcases verdict with _ | n | v | f
  · exact .pure rfl
  · exact .pure rfl
  · dsimp only
    cases v.number? <;> exact .pure rfl
  · exact .pure rfl

end Live.Tracks

end TreeQuery
