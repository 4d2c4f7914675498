import Mathlib.Data.PFun
import TreeQuery.Cursor.Check
import TreeQuery.Proofs.Cursor.Items
import TreeQuery.Proofs.Typing.Occurrence
/-!
# How far a streaming check looks ahead

A `Source` is a sequence that is pulled, without any promise: it may never end, it may fail, and it
may go on after either. A `Checking` is a streaming check over a source, with promoted items that
wait to be handed on, the number of items handed on, and whether it is over. As long as it is not
over a call pulls once and judges what it gets (`Checking.next_eq`), so the check is never further
ahead than the item or the failure that ends it: `Checking.lookahead`. Over a cursor it shows what
`Cursor.check` shows.
-/

namespace TreeQuery

/-! ### Sources -/

/-- What a pull shows: what was logged, and an item or a failure with its score, or the end. -/
structure Shown where
  log : List Trace
  delivery : Option Delivery

namespace Shown

def nothing : Shown := ⟨[], none⟩

def isItem : Shown → Bool
  | ⟨_, some (.ok _, _)⟩ => true
  | _ => false

def after (earlier : List Trace) (x : Shown) : Shown := ⟨earlier ++ x.log, x.delivery⟩

end Shown

/-- What a pull shows, and the state that it leaves. -/
structure Pulled (σ : Type) where
  shown : Shown
  state : σ

/-- A sequence that is pulled. -/
abbrev Source (σ : Type) := σ → Pulled σ

/-- The source with the number of pulls beside its state. -/
def Source.counted {σ : Type} (u : Source σ) : Source (σ × Nat) :=
  fun s => ⟨(u s.1).shown, ((u s.1).state, s.2 + 1)⟩

/-- A cursor as a source, if it is pulled with or without scores all the way. -/
def Cursor.source (scoring : Bool) : Source Cursor := fun c =>
  match c.pull scoring with
  | .ended log hint => ⟨⟨log, none⟩, .finished hint⟩
  | .yielded log outcome score rest => ⟨⟨log, some (outcome, score)⟩, rest⟩

/-- What calls show one after the other, and the state after them, if every one of them comes
back. -/
def callTimes {σ : Type} (call : σ →. Pulled σ) : Nat → σ →. List Shown × σ
  | 0, s => .some ([], s)
  | n + 1, s => do
    let p ← call s
    let (rest, s) ← callTimes call n p.state
    return (p.shown :: rest, s)

theorem callTimes_succ {σ : Type} {call : σ →. Pulled σ} {n : Nat} {s s' : σ} {p : Pulled σ}
    {rest : List Shown} (hcall : call s = .some p)
    (hrest : callTimes call n p.state = .some (rest, s')) :
    callTimes call (n + 1) s = .some (p.shown :: rest, s') := by
  simp [callTimes, hcall, hrest]

def itemCount (xs : List Shown) : Nat := xs.countP Shown.isItem

/-- Whether it was shown that there is nothing more to come: a failure or the end. -/
def Over (xs : List Shown) : Prop := ∃ x ∈ xs, x.isItem = false

/-! ### Streaming checks -/

def Item.promoted (forest : Forest) (item : Item) (target : ItemType) : Run (Option (List Item)) :=
  (Option.map fun promoted => [promoted]) <$> item.promote forest target

theorem Item.promoted_eq (forest : Forest) (item : Item) (target : ItemType) :
    item.promoted forest target =
    ⟨(item.promote forest target).log,
      (item.promote forest target).outcome.map (Option.map fun promoted => [promoted])⟩ := by
  rw [promoted]
  obtain ⟨log, e | promoted⟩ := item.promote forest target
  · rfl
  · simp [Functor.map, Logged.bind, Logged.pure, Except.map]

/-- The state of a check over a source. Items wait with the score of the one that they were made
of. -/
structure Checking (σ : Type) where
  input : σ
  pending : List (Item × Option Number) := []
  count : Nat := 0
  done : Bool := false

namespace Checking

variable {σ : Type} (t : TypeCheck) (forest : Forest) (u : Source σ)

/-- A turn of the search for an item: it pulls, and shows something unless promotion makes nothing
of the item that it got. What was logged in the turns before goes in front. -/
def turn : List Trace × Checking σ → Pulled (Checking σ) ⊕ (List Trace × Checking σ)
  | (log, c) =>
    let p := u c.input
    let log := log ++ p.shown.log
    let c := { c with input := p.state }
    match p.shown.delivery with
    | none => .inl ⟨⟨log, none⟩, c⟩
    | some (.error e, _) => .inl ⟨⟨log, some (.error e, none)⟩, c⟩
    | some (.ok item, score) =>
      let mismatch : Failure := .error (.dynamicMismatch item.render t.target t.location)
      if item.isInstance forest t.target.item then .inl ⟨⟨log, some (.ok item, score)⟩, c⟩
      else if t.promote then
        let promoted := item.promoted forest t.target.item
        let log := log ++ promoted.log
        match promoted.outcome with
        | .error e => .inl ⟨⟨log, some (.error (e.locate t.location), none)⟩, c⟩
        | .ok none => .inl ⟨⟨log, some (.error mismatch, none)⟩, c⟩
        | .ok (some []) => .inr (log, c)
        | .ok (some (item :: pending)) =>
          .inl ⟨⟨log, some (.ok item, score)⟩,
            { c with pending := pending.map fun item => (item, score) }⟩
      else .inl ⟨⟨log, some (.error mismatch, none)⟩, c⟩

/-- The next item of the target: one that waits, or else what the turns come to, which may go on for
ever. -/
def nextChecked (c : Checking σ) : Part (Pulled (Checking σ)) :=
  match c.pending with
  | (item, score) :: pending => .some ⟨⟨[], some (.ok item, score)⟩, { c with pending }⟩
  | [] => PFun.fix (PFun.lift (turn t forest u)) ([], c)

def next (c : Checking σ) : Part (Pulled (Checking σ)) :=
  if c.done then .some ⟨.nothing, c⟩
  else do
    let p ← nextChecked t forest u c
    let ended := { p.state with done := true }
    match p.shown.delivery with
    | none =>
      match t.finish p.state.count with
      | .error e => return ⟨⟨p.shown.log, some (.error e, none)⟩, ended⟩
      | .ok _ => return ⟨⟨p.shown.log, none⟩, ended⟩
    | some (.error e, _) => return ⟨⟨p.shown.log, some (.error e, none)⟩, ended⟩
    | some (.ok item, score) =>
      if t.target.occurrence.max.any (· ≤ p.state.count) then
        return ⟨⟨p.shown.log,
          some (.error (t.mismatch ("more than " ++ renderItemCount p.state.count)), none)⟩, ended⟩
      else return ⟨⟨p.shown.log, some (.ok item, score)⟩,
        { p.state with count := p.state.count + 1 }⟩

def answer (c : Checking σ) (p : Pulled σ) : Pulled (Checking σ) :=
  let ended := { c with input := p.state, done := true }
  match p.shown.delivery with
  | none =>
    match t.finish c.count with
    | .error e => ⟨⟨p.shown.log, some (.error e, none)⟩, ended⟩
    | .ok _ => ⟨⟨p.shown.log, none⟩, ended⟩
  | some (.error e, _) => ⟨⟨p.shown.log, some (.error e, none)⟩, ended⟩
  | some (.ok item, score) =>
    let checked := t.next forest c.count item
    match checked.outcome with
    | .error e => ⟨⟨p.shown.log ++ checked.log, some (.error e, none)⟩, ended⟩
    | .ok item =>
      ⟨⟨p.shown.log ++ checked.log, some (.ok item, score)⟩,
        { c with input := p.state, count := c.count + 1 }⟩

variable {t forest u} {c : Checking σ}

theorem next_done (h : c.done = true) :
    c.next t forest u = .some ⟨.nothing, c⟩ := by rw [next, if_pos h]

/-- Promotion makes one item of an item, so that a turn always shows something. -/
theorem turn_eq (t : TypeCheck) (forest : Forest) (u : Source σ) (log : List Trace)
    (h : c.pending = []) : turn t forest u (log, c) =
    let p := u c.input
    let log := log ++ p.shown.log
    let c := { c with input := p.state }
    match p.shown.delivery with
    | none => .inl ⟨⟨log, none⟩, c⟩
    | some (.error e, _) => .inl ⟨⟨log, some (.error e, none)⟩, c⟩
    | some (.ok item, score) =>
      let checked := (conformItem forest t.target t.promote t.location item).locate t.location
      match checked.outcome with
      | .error e => .inl ⟨⟨log ++ checked.log, some (.error e, none)⟩, c⟩
      | .ok item => .inl ⟨⟨log ++ checked.log, some (.ok item, score)⟩, c⟩ := by
  obtain ⟨input, pending, count, done⟩ := c
  obtain rfl : pending = [] := h
  rw [turn]
  dsimp only
  split
  · rfl
  · rfl
  next item score hshown =>
  rw [conformItem]
  split
  · simp [Logged.locate, pure, Logged.pure]
  cases t.promote with
  | false => simp [Logged.locate, Logged.fail, Failure.locate, Error.locate, Error.dynamicMismatch]
  | true =>
    rcases hpromote : item.promote forest t.target.item with ⟨log, e | _ | promoted⟩
    · simp [Item.promoted_eq, hpromote, Except.map, Logged.locate, bind, Logged.bind]
    · simp [Item.promoted_eq, hpromote, Except.map, Logged.locate, bind, Logged.bind, Logged.fail,
        Failure.locate, Error.locate, Error.dynamicMismatch]
    · simp [Item.promoted_eq, hpromote, Except.map, Logged.locate, bind, Logged.bind,
        pure, Logged.pure]

theorem nextChecked_eq (hpending : c.pending = []) {p : Pulled (Checking σ)}
    (hturn : turn t forest u ([], c) = .inl p) : c.nextChecked t forest u = .some p := by
  rw [nextChecked, hpending]
  exact Part.eq_some_iff.mpr (PFun.fix_stop (Part.mem_some_iff.mpr hturn.symm))

theorem next_eq (hpending : c.pending = []) (hdone : c.done = false) :
    c.next t forest u = .some (c.answer t forest (u c.input)) := by
  have hturn := turn_eq t forest u [] hpending
  rw [next, if_neg (by simp [hdone]), answer]
  generalize u c.input = p at hturn ⊢
  obtain ⟨⟨log, _ | ⟨e | item, score⟩⟩, s⟩ := p
  · rw [nextChecked_eq hpending hturn]
    simp only [Part.bind_eq_bind, Part.bind_some, List.nil_append]
    cases t.finish c.count <;> rfl
  · rw [nextChecked_eq hpending hturn]
    simp
  dsimp only [List.nil_append] at hturn ⊢
  rw [TypeCheck.next]
  generalize (conformItem forest t.target t.promote t.location item).locate t.location =
    checked at hturn ⊢
  obtain ⟨log', e | item⟩ := checked
  · rw [nextChecked_eq hpending hturn]
    simp [bind, Logged.bind]
  rw [nextChecked_eq hpending hturn]
  cases t.target.occurrence.max with
  | none => simp [bind, Logged.bind, pure, Logged.pure]
  | some limit =>
    by_cases hlimit : limit ≤ c.count <;>
      simp [hlimit, bind, Logged.bind, pure, Logged.pure, Logged.fail]

/-! ### Lookahead -/

/-- What holds of a check over a counted source between two calls. -/
structure Bounded (t : TypeCheck) (c : Checking (σ × Nat)) : Prop where
  pending : c.pending = []
  pulls : c.input.2 ≤ c.count + c.done.toNat
  room : t.target.occurrence.AtMost c.count

theorem Bounded.start (s : σ) : Bounded t { input := (s, 0) } :=
  ⟨rfl, Nat.zero_le _, fun _ _ => Nat.zero_le _⟩

theorem next_cases (t : TypeCheck) (forest : Forest) (u : Source σ) (hpending : c.pending = [])
    (hdone : c.done = false) : ∃ p, c.next t forest u = .some p ∧
    p.state.input = (u c.input).state ∧ p.state.pending = [] ∧
      ((p.shown.isItem = true ∧ p.state.count = c.count + 1 ∧ p.state.done = false ∧
          t.target.occurrence.AtMost (c.count + 1)) ∨
        (p.shown.isItem = false ∧ p.state.count = c.count ∧ p.state.done = true)) := by
  refine ⟨_, next_eq hpending hdone, ?_⟩
  simp only [answer]
  split
  · split <;> exact ⟨rfl, hpending, .inr ⟨rfl, rfl, rfl⟩⟩
  · exact ⟨rfl, hpending, .inr ⟨rfl, rfl, rfl⟩⟩
  split
  · exact ⟨rfl, hpending, .inr ⟨rfl, rfl, rfl⟩⟩
  next item hitem => exact ⟨rfl, hpending, .inl ⟨rfl, rfl, hdone, (TypeCheck.next_gives hitem).2⟩⟩

/-- A call pulls at most once, and either shows one item more or leaves the check over. -/
theorem Bounded.call {c : Checking (σ × Nat)} (h : Bounded t c) (forest : Forest) (u : Source σ) :
    ∃ p, c.next t forest u.counted = .some p ∧ Bounded t p.state ∧ p.state.input.2 ≤ c.input.2 + 1 ∧
      p.state.count = c.count + p.shown.isItem.toNat ∧
      p.state.done = (c.done || !p.shown.isItem) := by
  obtain ⟨hpending, hpulls, hroom⟩ := h
  cases hdone : c.done with
  | true => exact ⟨_, next_done hdone, ⟨hpending, hpulls, hroom⟩, Nat.le_succ _, rfl, hdone⟩
  | false =>
    obtain ⟨p, hcall, hinput, hwait, h⟩ := next_cases t forest u.counted hpending hdone
    have hpulled : p.state.input.2 = c.input.2 + 1 := congrArg Prod.snd hinput
    rw [hdone, Bool.toNat_false] at hpulls
    obtain ⟨hitem, hcount, hover, hlimit⟩ | ⟨hitem, hcount, hover⟩ := h
    · refine ⟨p, hcall, ⟨hwait, ?_, hcount ▸ hlimit⟩, Nat.le_of_eq hpulled,
        by simp [hcount, hitem], by simp [hover, hitem]⟩
      rw [hpulled, hcount, hover, Bool.toNat_false]
      omega
    · refine ⟨p, hcall, ⟨hwait, ?_, hcount ▸ hroom⟩, Nat.le_of_eq hpulled,
        by simp [hcount, hitem], by simp [hover, hitem]⟩
      rw [hpulled, hcount, hover, Bool.toNat_true]
      omega

/-- After any number of calls all that was pulled has been shown, up to what ended the check. -/
theorem Bounded.calls {c : Checking (σ × Nat)} (h : Bounded t c) (forest : Forest) (u : Source σ) :
    (n : Nat) →
    ∃ shown c', callTimes (next t forest u.counted) n c = .some (shown, c') ∧ Bounded t c' ∧
      c'.count = c.count + itemCount shown ∧ (c.done = true ∨ Over shown → c'.done = true)
  | 0 => ⟨[], c, rfl, h, rfl, by simp [Over]⟩
  | n + 1 => by
    obtain ⟨p, hcall, hp, -, hcount, hdone⟩ := h.call forest u
    obtain ⟨shown, c', hcalls, hc', hcount', hdone'⟩ := hp.calls forest u n
    refine ⟨p.shown :: shown, c', callTimes_succ hcall hcalls, hc', ?_, fun hover => hdone' ?_⟩
    · rw [hcount', hcount, itemCount, itemCount, List.countP_cons]
      cases p.shown.isItem with
      | false => simp
      | true => simp; omega
    · simp only [Over, List.mem_cons, exists_eq_or_imp] at hover ⊢
      rcases hover with hover | hover | hover
      · exact .inl (by simp [hdone, hover])
      · exact .inl (by simp [hdone, hover])
      · exact .inr hover

theorem calls_done (hdone : c.done = true) : (n : Nat) →
    callTimes (next t forest u) n c = .some (List.replicate n .nothing, c)
  | 0 => rfl
  | n + 1 => callTimes_succ (next_done hdone) (calls_done hdone n)

/-! ### Checks of cursors -/

/-- A check over a cursor does what another cursor does: the checked cursor, or one that is
finished. -/
def Follows (t : TypeCheck) (forest : Forest) (c : Checking (Cursor × Nat)) (checked : Cursor) :
    Prop :=
  if c.done then ∃ hint, checked = .finished hint
  else c.pending = [] ∧ checked = c.input.1.check t forest c.count

theorem Follows.start (t : TypeCheck) (forest : Forest) (cursor : Cursor) :
    Follows t forest { input := (cursor, 0) } (cursor.check t forest 0) := ⟨rfl, rfl⟩

theorem Follows.of_done {c : Checking (Cursor × Nat)} (hdone : c.done = true) (hint : SizeHint) :
    Follows t forest c (.finished hint) := by
  rw [Follows, if_pos hdone]
  exact ⟨hint, rfl⟩

theorem Follows.call {c : Checking (Cursor × Nat)} {checked : Cursor}
    (h : Follows t forest c checked) (scoring : Bool) :
    ∃ p, c.next t forest (Cursor.source scoring).counted = .some p ∧
    p.shown = (Cursor.source scoring checked).shown ∧
      Follows t forest p.state (Cursor.source scoring checked).state := by
  unfold Follows at h
  split at h
  next hdone =>
    obtain ⟨hint, rfl⟩ := h
    exact ⟨_, next_done hdone, rfl, .of_done hdone hint⟩
  next hdone =>
    obtain ⟨hpending, rfl⟩ := h
    refine ⟨_, next_eq hpending (Bool.eq_false_iff.mpr hdone), ?_⟩
    obtain ⟨⟨⟨hint, pull⟩, pulls⟩, pending, count, done⟩ := c
    simp only [Source.counted, Cursor.source, Cursor.check, Cursor.pull, answer]
    rcases pull scoring with ⟨log, hint⟩ | ⟨log, e | item, score, rest⟩
    · rw [Reply.check]
      cases t.finish count <;> exact ⟨rfl, .of_done rfl _⟩
    · exact ⟨rfl, .of_done rfl _⟩
    · rw [Reply.check]
      dsimp only
      cases (t.next forest count item).outcome with
      | error e => exact ⟨rfl, .of_done rfl _⟩
      | ok item => exact ⟨rfl, (if_neg hdone).mpr ⟨hpending, rfl⟩⟩

theorem Follows.calls {c : Checking (Cursor × Nat)} {checked : Cursor}
    (h : Follows t forest c checked) (scoring : Bool) : (n : Nat) →
    ∃ shown c' checked', callTimes (next t forest (Cursor.source scoring).counted) n c =
    .some (shown, c') ∧
      callTimes (fun c => .some (Cursor.source scoring c)) n checked = .some (shown, checked') ∧
      Follows t forest c' checked'
  | 0 => ⟨[], c, checked, rfl, rfl, h⟩
  | n + 1 => by
    obtain ⟨p, hcall, hshown, hp⟩ := h.call scoring
    obtain ⟨shown, c', checked', hcalls, hcursor, h'⟩ := hp.calls scoring n
    exact ⟨p.shown :: shown, c', checked', callTimes_succ hcall hcalls,
      by simp [callTimes, hcursor, hshown], h'⟩

/-- After any number of calls to a check over any source the next call pulls at most once, at most
one thing more was pulled than items were handed on, of which there are no more than the target has
room for, and once a failure or the end was shown nothing is pulled again and every call shows the
end. Over a cursor the calls show what the checked cursor shows. -/
theorem lookahead (t : TypeCheck) (forest : Forest) :
    (∀ (σ : Type) (u : Source σ) (s : σ) (n : Nat), ∃ shown c,
      callTimes (next t forest u.counted) n { input := (s, 0) } = .some (shown, c) ∧
        (∃ p, c.next t forest u.counted = .some p ∧ p.state.input.2 ≤ c.input.2 + 1) ∧
        c.input.2 ≤ itemCount shown + 1 ∧
        (∀ m, t.target.occurrence.max = some m → itemCount shown ≤ m ∧ c.input.2 ≤ m + 1) ∧
        (Over shown → ∀ k, callTimes (next t forest u.counted) k c = .some
          (List.replicate k .nothing, c))) ∧
      ∀ scoring cursor n, ∃ shown c checked,
        callTimes (next t forest (Cursor.source scoring).counted) n { input := (cursor, 0) } =
          .some (shown, c) ∧
          callTimes (fun c => .some (Cursor.source scoring c)) n (cursor.check t forest 0) = .some
            (shown, checked) := by
  refine ⟨fun σ u s n => ?_, fun scoring cursor n => ?_⟩
  · obtain ⟨shown, c, hcalls, hc, hcount, hdone⟩ := (Bounded.start (t := t) s).calls forest u n
    obtain ⟨p, hcall, -, hpulls, -⟩ := hc.call forest u
    rw [Nat.zero_add] at hcount
    have hpulled : c.input.2 ≤ itemCount shown + 1 := by
      have := hc.pulls
      have := Bool.toNat_le c.done
      omega
    refine ⟨shown, c, hcalls, ⟨p, hcall, hpulls⟩, hpulled, fun m hm => ?_,
      fun hover => calls_done (hdone (.inr hover))⟩
    have hroom : itemCount shown ≤ m := hcount ▸ hc.room m hm
    exact ⟨hroom, by omega⟩
  · obtain ⟨shown, c, checked, hcalls, hcursor, -⟩ :=
      (Follows.start t forest cursor).calls scoring n
    exact ⟨shown, c, checked, hcalls, hcursor⟩

/-- A source without end is pulled twice by a check for at most one item. -/
theorem lookahead_endless :
    let t : TypeCheck := ⟨.optional (.atomic .integer), true, none⟩
    let sevens : Source Unit := fun _ => ⟨⟨[], some (.ok (.atomic (.untyped "7")), none)⟩, ()⟩
    ∃ e c, callTimes (next t (.empty false) sevens.counted) 2 { input := ((), 0) } =
        .some ([⟨[], some (.ok (.atomic (.integer 7)), none)⟩, ⟨[], some (.error e, none)⟩], c) ∧
      c.input.2 ≤ 2 ∧
      ∀ k, callTimes (next t (.empty false) sevens.counted) k c = .some
        (List.replicate k .nothing, c) := by
  intro t sevens
  obtain ⟨shown, c, hcalls, -, -, hroom, hover⟩ := (lookahead t (.empty false)).1 Unit sevens () 2
  have hseven : next t (.empty false) sevens.counted { input := ((), 0) } =
      .some ⟨⟨[], some (.ok (.atomic (.integer 7)), none)⟩, ⟨((), 1), [], 1, false⟩⟩ :=
        next_eq rfl rfl
  have hfull : next t (.empty false) sevens.counted ⟨((), 1), [], 1, false⟩ =
      .some ⟨⟨[], some (.error (t.mismatch "more than 1 item(s)"), none)⟩,
        ⟨((), 2), [], 1, true⟩⟩ := next_eq rfl rfl
  have hrun := callTimes_succ hseven (callTimes_succ hfull (rfl : callTimes _ 0 _ = _))
  obtain ⟨rfl, rfl⟩ := Prod.mk.inj (Part.some_injective (hrun.symm.trans hcalls))
  exact ⟨_, _, hrun, (hroom 1 rfl).2, hover ⟨_, .tail _ (.head _), rfl⟩⟩

end Checking
end TreeQuery
