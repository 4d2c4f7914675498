import TreeQuery.Eval.Operation
import TreeQuery.Cursor.Check
import TreeQuery.Proofs.Ensures
import TreeQuery.Proofs.Errors
/-!
# What evaluation promises

A `Promise` is kept by an evaluation if all entries that it logs, all items that it delivers and all
its failures are as promised; by a cursor, if this holds of every pull there can be, also of those
after a failure (`Cursor.Keeps`). The lemmas go through all ways to build a cursor and to consume
it.
-/

namespace TreeQuery

/-- What is promised of log entries, items and failures. -/
structure Promise where
  entry : Trace → Prop
  item : Item → Prop
  failure : Failure → Prop

/-- A promise that the operations on values do not break. -/
structure Promise.Lawful (P : Promise) : Prop where
  node : ∀ n, P.item (.node n)
  atomic : ∀ v, P.item (.atomic v)
  coerce : ∀ {f s g}, f.coerce s = .ok g → P.item (.function f) → P.item (.function g)
  remark : ∀ f s, P.entry (Item.coercionTrace f s)
  error : ∀ {e : Error}, e.Ordinary → P.failure (.error e)
  aborted : P.failure .aborted
  placeless : Placeless P.failure

/-- A computation with an answer in `Q` that keeps the promise. -/
abbrev Logged.Keeps {α : Type} (x : Run α) (P : Promise) (Q : α → Prop) : Prop :=
  x.Ensures P.entry Q P.failure

mutual

def Cursor.Keeps (P : Promise) : Cursor → Prop
  | .mk _ pull => ∀ scoring, (pull scoring).Keeps P

def Reply.Keeps (P : Promise) : Reply → Prop
  | .ended log _ => ∀ t ∈ log, P.entry t
  | .yielded log outcome _ rest =>
    (∀ t ∈ log, P.entry t) ∧ (∀ item, outcome = .ok item → P.item item) ∧
    (∀ e, outcome = .error e → P.failure e) ∧
    rest.Keeps P

end

section

variable {P : Promise}

theorem Cursor.Keeps.pull {c : Cursor} (h : c.Keeps P) (scoring : Bool) :
    (c.pull scoring).Keeps P := by
  obtain ⟨hint, pull⟩ := c
  exact h scoring

theorem Reply.keeps_ok {log : List Trace} {item : Item} {score : Option Number} {rest : Cursor} :
    (Reply.yielded log (.ok item) score rest).Keeps P ↔ (∀ t ∈ log, P.entry t) ∧ P.item item ∧
    rest.Keeps P := by
  simp [Reply.Keeps]

theorem Reply.keeps_error {log : List Trace} {e : Failure} {score : Option Number} {rest : Cursor} :
    (Reply.yielded log (.error e) score rest).Keeps P ↔ (∀ t ∈ log, P.entry t) ∧ P.failure e ∧
    rest.Keeps P := by
  simp [Reply.Keeps]

theorem Reply.Keeps.after {log : List Trace} {r : Reply} (hlog : ∀ t ∈ log, P.entry t)
    (h : r.Keeps P) : (r.after log).Keeps P := by
  cases r with
  | ended own hint => exact List.forall_mem_append.mpr ⟨hlog, h⟩
  | yielded own outcome score rest => exact ⟨List.forall_mem_append.mpr ⟨hlog, h.1⟩, h.2⟩

/-! ### Cursors over given items -/

theorem Cursor.keeps_finished (hint : SizeHint) : (finished hint).Keeps P :=
  fun _ => by simp [Reply.Keeps]

theorem Cursor.keeps_ofCounted {items : List (Item × Option Number)} (n : Nat)
    (h : ∀ entry ∈ items, P.item entry.1) : (ofCounted n items).Keeps P := by
  induction items generalizing n with
  | nil => exact keeps_finished _
  | cons entry rest ih =>
    intro scoring
    rw [Reply.keeps_ok]
    exact ⟨by simp, h entry List.mem_cons_self, ih (n -
      1) fun e he => h e (List.mem_cons_of_mem _ he)⟩

theorem Cursor.keeps_ofScored {items : List (Item × Option Number)}
    (h : ∀ entry ∈ items, P.item entry.1) : (ofScored items).Keeps P := keeps_ofCounted _ h

theorem Cursor.keeps_ofPlain {items : List Item} (n : Nat) (h : ∀ item ∈ items, P.item item) :
    (ofPlain n items).Keeps P := by
  induction items generalizing n with
  | nil => exact keeps_finished _
  | cons item rest ih =>
    intro scoring
    rw [Reply.keeps_ok]
    exact ⟨by simp, h item List.mem_cons_self, ih (n -
      1) fun e he => h e (List.mem_cons_of_mem _ he)⟩

theorem Cursor.keeps_ofList {items : List Item} (h : ∀ item ∈ items, P.item item) :
    (ofList items).Keeps P :=
  keeps_ofPlain _ h

theorem Cursor.keeps_single {item : Item} (h : P.item item) : (single item).Keeps P :=
  keeps_ofList (by simpa using h)

/-! ### Concatenation -/

mutual

theorem Cursor.Keeps.append {next : Cursor} (hnext : next.Keeps P) :
    {c : Cursor} → c.Keeps P → (c.append next).Keeps P
  | .mk hint pull, h => by
    rw [Cursor.append]
    exact fun scoring => Reply.Keeps.append hnext scoring (h scoring)

theorem Reply.Keeps.append {next : Cursor} (hnext : next.Keeps P) (scoring : Bool) :
    {r : Reply} → r.Keeps P → (r.append next scoring).Keeps P
  | .ended log hint, h => by
    rw [Reply.append]
    exact (hnext.pull scoring).after h
  | .yielded log outcome score rest, h => by
    rw [Reply.append]
    exact ⟨h.1, h.2.1, h.2.2.1, Cursor.Keeps.append hnext h.2.2.2⟩

end

structure Link.Keeps (P : Promise) (link : Link) : Prop where
  accept : ∀ item e, link.accept item = .error e → P.failure e
  start : ∀ scoring n item, P.item item → (link.start scoring n item).Keeps P (Cursor.Keeps P)

mutual

theorem Cursor.Keeps.chain {link : Link} (hlink : link.Keeps P) (n : Nat) :
    {c : Cursor} → c.Keeps P → (c.chain link n).Keeps P
  | .mk hint pull, h => by
    rw [Cursor.chain]
    exact fun scoring => Reply.Keeps.chain hlink n scoring (h scoring)

theorem Reply.Keeps.chain {link : Link} (hlink : link.Keeps P) (n : Nat) (scoring : Bool) :
    {r : Reply} → r.Keeps P → (r.chain link n scoring).Keeps P
  | .ended log hint, h => by
    rw [Reply.chain]
    exact h
  | .yielded log (.error e) score rest, h => by
    rw [Reply.keeps_error] at h
    rw [Reply.chain, Reply.keeps_error]
    exact ⟨h.1, h.2.1, h.2.2.chain hlink n⟩
  | .yielded log (.ok item) score rest, h => by
    rw [Reply.keeps_ok] at h
    have hstart := hlink.start scoring (n + 1) item h.2.1
    have hlog : ∀ t ∈ log ++ (link.start scoring (n + 1) item).log, P.entry t :=
      List.forall_mem_append.mpr ⟨h.1, hstart.log⟩
    rw [Reply.chain]
    cases haccept : link.accept item with
    | error e => exact Reply.keeps_error.mpr ⟨h.1, hlink.accept item e haccept, h.2.2.chain hlink n⟩
    | ok u =>
      have hrest := h.2.2.chain hlink (n + 1)
      dsimp only
      cases hopened : (link.start scoring (n + 1) item).outcome with
      | error e => exact Reply.keeps_error.mpr ⟨hlog, hstart.failure e hopened, hrest⟩
      | ok current =>
        exact (Reply.Keeps.append hrest scoring
          ((hstart.answer current hopened).pull scoring)).after hlog

end

/-! ### Filters -/

def Judgement.Keeps (P : Promise) (judge : Judgement) : Prop :=
  ∀ scoring n item, P.item item → (judge scoring n item).Keeps P fun _ => True

theorem forall_mem_verdict {log earlier own : List Trace} (hlog : ∀ t ∈ log, P.entry t)
    (hearlier : ∀ t ∈ earlier, P.entry t) (hown : ∀ t ∈ own, P.entry t) :
    ∀ t ∈ own.reverse ++ (log.reverse ++ earlier), P.entry t := by
  simp only [List.mem_append, List.mem_reverse]
  rintro t (ht | ht | ht)
  · exact hown t ht
  · exact hlog t ht
  · exact hearlier t ht

theorem forall_mem_reverse {earlier : List Trace} (h : ∀ t ∈ earlier, P.entry t) :
    ∀ t ∈ earlier.reverse, P.entry t :=
  fun t ht => h t (List.mem_reverse.mp ht)

mutual

theorem Cursor.Keeps.select {judge : Judgement} (hjudge : judge.Keeps P) (n : Nat) :
    {c : Cursor} → c.Keeps P → (c.select judge n).Keeps P
  | .mk hint pull, h => by
    rw [Cursor.select]
    exact fun scoring => Reply.Keeps.select hjudge n scoring [] (by simp) (h scoring)

theorem Reply.Keeps.select {judge : Judgement} (hjudge : judge.Keeps P) (n : Nat) (scoring : Bool)
    (earlier : List Trace) (hearlier : ∀ t ∈ earlier, P.entry t) :
    {r : Reply} → r.Keeps P → (r.select judge n scoring earlier).Keeps P
  | .ended log hint, h => by
    rw [Reply.select]
    exact List.forall_mem_append.mpr ⟨forall_mem_reverse hearlier, h⟩
  | .yielded log (.error e) score rest, h => by
    rw [Reply.keeps_error] at h
    rw [Reply.select, Reply.keeps_error]
    exact ⟨List.forall_mem_append.mpr ⟨forall_mem_reverse hearlier, h.1⟩, h.2.1,
      h.2.2.select hjudge n⟩
  | .yielded log (.ok item) score (.mk hint pull), h => by
    rw [Reply.keeps_ok] at h
    have hverdict := hjudge scoring (n + 1) item h.2.1
    have hlog := forall_mem_verdict h.1 hearlier hverdict.log
    have hrest : (Cursor.select judge (n + 1) (.mk hint pull)).Keeps P :=
      h.2.2.select hjudge (n + 1)
    rw [Reply.select]
    cases hout : (judge scoring (n + 1) item).outcome with
    | error e =>
      exact Reply.keeps_error.mpr ⟨forall_mem_reverse hlog, hverdict.failure e hout, hrest⟩
    | ok answer =>
      cases answer with
      | some s => exact Reply.keeps_ok.mpr ⟨forall_mem_reverse hlog, h.2.1, hrest⟩
      | none => exact Reply.Keeps.select hjudge (n + 1) scoring _ hlog (h.2.2 scoring)

end

mutual

theorem Cursor.Keeps.window {w : Window} {judge : Judgement} (hjudge : judge.Keeps P) (n : Nat) :
    {c : Cursor} → c.Keeps P → (c.window w judge n).Keeps P
  | .mk hint pull, h => by
    rw [Cursor.window]
    intro scoring
    dsimp only
    split
    · exact Reply.Keeps.window hjudge n scoring [] (by simp) (h scoring)
    · simp [Reply.Keeps]

theorem Reply.Keeps.window {w : Window} {judge : Judgement} (hjudge : judge.Keeps P) (n : Nat)
    (scoring : Bool) (earlier : List Trace) (hearlier : ∀ t ∈ earlier, P.entry t) :
    {r : Reply} → r.Keeps P → (r.window w judge n scoring earlier).Keeps P
  | .ended log hint, h => by
    rw [Reply.window]
    exact List.forall_mem_append.mpr ⟨forall_mem_reverse hearlier, h⟩
  | .yielded log (.error e) score rest, h => by
    rw [Reply.keeps_error] at h
    rw [Reply.window, Reply.keeps_error]
    exact ⟨List.forall_mem_append.mpr ⟨forall_mem_reverse hearlier, h.1⟩, h.2.1,
      h.2.2.window hjudge n⟩
  | .yielded log (.ok item) score (.mk hint pull), h => by
    rw [Reply.keeps_ok] at h
    have hrest : (Cursor.window w judge (n + 1) (.mk hint pull)).Keeps P :=
      h.2.2.window hjudge (n + 1)
    -- before the window no judgement is made
    have hverdict : (if n + 1 < w.first then return none else
      judge scoring (n + 1) item : Run (Option Number)).Keeps P
        fun _ => True := by
      split
      · exact .pure trivial
      · exact hjudge scoring (n + 1) item h.2.1
    rw [Reply.window]
    generalize (if n + 1 < w.first then return none else
      judge scoring (n + 1) item : Run (Option Number)) = verdict
      at hverdict ⊢
    have hlog := forall_mem_verdict h.1 hearlier hverdict.log
    cases hout : verdict.outcome with
    | error e =>
      exact Reply.keeps_error.mpr ⟨forall_mem_reverse hlog, hverdict.failure e hout, hrest⟩
    | ok answer =>
      cases answer with
      | some s => exact Reply.keeps_ok.mpr ⟨forall_mem_reverse hlog, h.2.1, hrest⟩
      | none =>
        dsimp only
        split
        · exact Reply.Keeps.window hjudge (n + 1) scoring _ hlog (h.2.2 scoring)
        · exact forall_mem_reverse hlog

end

end

/-! ### Conformance -/

section Conformance

variable {P : Promise} (hP : P.Lawful) {forest : Forest}

include hP

theorem Promise.Lawful.cause {c : Cause} (h : c.Ordinary) : P.failure (.of c) := hP.error h

theorem Promise.Lawful.lift {α : Type} {Q : α → Prop} {x : Except Error α}
    (hx : Raises Error.Ordinary x) (hQ : ∀ a, x = .ok a → Q a) :
    (Logged.lift x : Run α).Keeps P Q :=
  .lift hQ fun e he => hP.error (hx e he)

theorem Promise.Lawful.ofOutcome {α : Type} {Q : α → Prop} {x : Except Failure α}
    (hx : ∀ f, x = .error f → f = .aborted ∨ ∃ e : Error, f = .error e ∧ e.Ordinary)
    (hQ : ∀ a, x = .ok a → Q a) : (Logged.ofOutcome x : Run α).Keeps P Q := by
  refine .ofOutcome hQ fun f hf => ?_
  rcases hx f hf with rfl | ⟨e, rfl, he⟩
  · exact hP.aborted
  · exact hP.error he

theorem Item.promote_keeps {item : Item} (h : P.item item) (target : ItemType) :
    (item.promote forest target).Keeps P fun promoted => ∀ i, promoted = some i → P.item i := by
  unfold Item.promote
  split
  · refine hP.lift ((castText_ordinary _ _).map _) ?_
    rintro promoted hpromoted i rfl
    cases hv : castText (forest.stringValue ‹_›) ‹_› with
    | error e => simp [hv, Except.map] at hpromoted
    | ok v =>
      obtain rfl : Item.atomic v = i := by simpa [hv, Except.map] using hpromoted
      exact hP.atomic v
  · refine hP.lift ((Atomic.promote_ordinary _ _).map _) ?_
    rintro promoted hpromoted i rfl
    cases hv : Atomic.promote ‹_› ‹_› with
    | error e => simp [hv, Except.map] at hpromoted
    | ok v =>
      obtain ⟨w, -, rfl⟩ : ∃ w, v = some w ∧ Item.atomic w = i := by
        simpa [hv, Except.map] using hpromoted
      exact hP.atomic w
  · next f s =>
    refine (hP.lift (f.coerce_ordinary s) fun g hg => hP.coerce hg h).bind fun g hg => ?_
    have hpure : (return some (.function g) : Run (Option Item)).Keeps P fun promoted =>
        ∀ i, promoted = some i → P.item i :=
      .pure fun i hi => Option.some.inj hi ▸ hg
    dsimp only
    split
    · exact (Logged.Ensures.write (hP.remark f s)).bind fun _ _ => hpure
    · exact hpure
  · exact .pure nofun

theorem conformItem_keeps {target : SeqType} {promote : Bool} {l : Option Location} {item : Item}
    (h : P.item item) : (conformItem forest target promote l item).Keeps P P.item := by
  have mismatch : (Logged.fail (.error (.dynamicMismatch item.render target l)) :
      Run Item).Keeps P P.item :=
    .fail (hP.error Error.ordinary_dynamicMismatch)
  unfold conformItem
  split
  · exact .pure h
  · split
    · refine (Item.promote_keeps hP h _).bind fun promoted hpromoted => ?_
      cases promoted with
      | some i => exact .pure (hpromoted i rfl)
      | none => exact mismatch
    · exact mismatch

theorem checkSequence_keeps {target : SeqType} {promote : Bool} {l : Option Location}
    {items : List Item} (h : ∀ item ∈ items, P.item item) :
    (checkSequence forest target promote l items).Keeps P fun items =>
    ∀ item ∈ items, P.item item := by
  unfold checkSequence
  split
  · exact .mapM fun item hitem => conformItem_keeps hP (h item hitem)
  · exact .fail (hP.error Error.ordinary_dynamicMismatch)

/-! ### Type checks that stream -/

theorem TypeCheck.next_keeps {t : TypeCheck} {n : Nat} {item : Item} (h : P.item item) :
    (t.next forest n item).Keeps P P.item := by
  unfold TypeCheck.next
  refine ((conformItem_keeps hP h).locate hP.placeless _).bind fun i hi => ?_
  split
  · split
    · exact .fail (hP.error Error.ordinary_dynamicMismatch)
    · exact .pure hi
  · exact .pure hi

omit hP

mutual

theorem Cursor.Keeps.check (hP : P.Lawful) {t : TypeCheck} (n : Nat) :
    {c : Cursor} → c.Keeps P → (c.check t forest n).Keeps P
  | .mk hint pull, h => by
    rw [Cursor.check]
    exact fun scoring => Reply.Keeps.check hP n (h scoring)

theorem Reply.Keeps.check (hP : P.Lawful) {t : TypeCheck} (n : Nat) :
    {r : Reply} → r.Keeps P → (r.check t forest n).Keeps P
  | .ended log hint, h => by
    rw [Reply.check]
    cases hfinish : t.finish n with
    | ok u => exact h
    | error e =>
      have he : P.failure e := by
        unfold TypeCheck.finish at hfinish
        split at hfinish
        · exact Except.error.inj hfinish ▸ hP.error Error.ordinary_dynamicMismatch
        · cases hfinish
      exact Reply.keeps_error.mpr ⟨h, he, Cursor.keeps_finished _⟩
  | .yielded log (.error e) score rest, h => by
    rw [Reply.keeps_error] at h
    rw [Reply.check, Reply.keeps_error]
    exact ⟨h.1, h.2.1, Cursor.keeps_finished _⟩
  | .yielded log (.ok item) score rest, h => by
    rw [Reply.keeps_ok] at h
    have hnext : (t.next forest n item).Keeps P P.item := TypeCheck.next_keeps hP h.2.1
    have hlog := List.forall_mem_append.mpr ⟨h.1, hnext.log⟩
    rw [Reply.check]
    cases hout : (t.next forest n item).outcome with
    | error e => exact Reply.keeps_error.mpr ⟨hlog, hnext.failure e hout, Cursor.keeps_finished _⟩
    | ok i =>
      exact Reply.keeps_ok.mpr ⟨hlog, hnext.answer i hout, Cursor.Keeps.check hP (n + 1) h.2.2⟩

end

end Conformance

/-! ### Consuming a cursor -/

section Consume

variable {P : Promise} {β : Type} {B : β → Prop}

theorem Reply.fold_keeps {scoring : Bool} {step : β → Item → Option Number → Run β}
    (hstep : ∀ b item score, B b → P.item item → (step b item score).Keeps P B) :
    (r : Reply) → (b : β) → (earlier : List Trace) → r.Keeps P → B b → (∀ t ∈ earlier, P.entry t) →
      (r.fold scoring step b earlier).Keeps P B
  | .ended log hint, b, earlier, h, hb, hearlier => by
    rw [Reply.fold]
    exact ⟨List.forall_mem_append.mpr ⟨forall_mem_reverse hearlier, h⟩,
      fun a ha => Except.ok.inj ha ▸ hb, nofun⟩
  | .yielded log (.error e) score rest, b, earlier, h, hb, hearlier => by
    rw [Reply.keeps_error] at h
    rw [Reply.fold]
    exact ⟨List.forall_mem_append.mpr ⟨forall_mem_reverse hearlier, h.1⟩, nofun,
      fun f hf => Except.error.inj hf ▸ h.2.1⟩
  | .yielded log (.ok item) score (.mk hint pull), b, earlier, h, hb, hearlier => by
    rw [Reply.keeps_ok] at h
    have hverdict := hstep b item score hb h.2.1
    have hlog : ∀ t ∈ log.reverse ++ earlier, P.entry t :=
      List.forall_mem_append.mpr ⟨forall_mem_reverse h.1, hearlier⟩
    rw [Reply.fold]
    split
    · next own e hown =>
      rw [hown] at hverdict
      exact ⟨List.forall_mem_append.mpr ⟨forall_mem_reverse hlog, hverdict.log⟩, nofun,
        fun f hf => Except.error.inj hf ▸ hverdict.failure e rfl⟩
    · next own b' hown =>
      rw [hown] at hverdict
      exact Reply.fold_keeps hstep (pull scoring) b' _ (h.2.2 scoring) (hverdict.answer b' rfl)
        (List.forall_mem_append.mpr ⟨forall_mem_reverse hverdict.log, hlog⟩)

namespace Cursor

variable {scoring : Bool} {c : Cursor}

theorem fold_keeps {step : β → Item → Option Number → Run β} (hc : c.Keeps P) {b : β} (hb : B b)
    (hstep : ∀ b item score, B b → P.item item → (step b item score).Keeps P B) :
    (c.fold scoring step b).Keeps P B :=
  Reply.fold_keeps hstep _ b [] (hc.pull scoring) hb (by simp)

theorem count_keeps (hc : c.Keeps P) : (c.count scoring).Keeps P fun _ => True :=
  fold_keeps hc trivial fun _ _ _ _ _ => .pure trivial

theorem first?_keeps (hc : c.Keeps P) :
    (c.first? scoring).Keeps P fun answer => ∀ first, answer = some first → P.item first.1 ∧
    first.2.Keeps P := by
  have hreply := hc.pull scoring
  unfold first?
  split
  · next log hint heq =>
    rw [heq] at hreply
    refine ⟨hreply, ?_, fun e h => by cases h⟩
    rintro answer hanswer first rfl
    cases hanswer
  · next log item score rest heq =>
    rw [heq, Reply.keeps_ok] at hreply
    refine ⟨hreply.1, ?_, fun e h => by cases h⟩
    rintro answer hanswer first rfl
    obtain rfl : (item, rest) = first := by simpa [Logged.Gives] using hanswer
    exact hreply.2
  · next log e score rest heq =>
    rw [heq, Reply.keeps_error] at hreply
    exact ⟨hreply.1, fun answer h => (by cases h), fun f hf => Except.error.inj hf ▸ hreply.2.1⟩

variable (hP : P.Lawful)

include hP

theorem keep_keeps {reversed : List β} {C : β → Prop} (h : ∀ b ∈ reversed, C b) :
    (keep reversed).Keeps P fun kept => ∀ b ∈ kept, C b := by
  unfold keep
  split
  · exact .pure fun b hb => h b (List.mem_reverse.mp hb)
  · exact .fail hP.aborted

theorem drain_keeps (hc : c.Keeps P) :
    (c.drain scoring).Keeps P fun items => ∀ item ∈ items, P.item item := by
  refine (fold_keeps (B := fun items => ∀ item ∈ items, P.item item) hc (by simp) ?_).bind
    fun items => keep_keeps hP
  intro items item _ hitems hitem
  exact .pure (List.forall_mem_cons.mpr ⟨hitem, hitems⟩)

theorem drainScored_keeps (hc : c.Keeps P) :
    (c.drainScored scoring).Keeps P fun entries => ∀ entry ∈ entries, P.item entry.1 := by
  refine (fold_keeps (B := fun entries => ∀ entry ∈ entries, P.item entry.1) hc (by simp) ?_).bind
    fun entries => keep_keeps (C := fun entry : Item × Number => P.item entry.1) hP
  intro entries item _ hentries hitem
  exact .pure (List.forall_mem_cons.mpr ⟨hitem, hentries⟩)

/-! ### Truth -/

theorem expectEnd_keeps (hc : c.Keeps P) : (c.expectEnd scoring).Keeps P fun _ => True := by
  refine (first?_keeps hc).bind fun answer _ => ?_
  cases answer with
  | none => exact .pure trivial
  | some _ => exact .fail (hP.cause trivial)

theorem decider_keeps (l : Option Location) (hc : c.Keeps P) :
    (c.decider scoring l).Keeps P fun _ => True := by
  refine (first?_keeps hc).bind fun answer hanswer => ?_
  match answer, hanswer with
  | none, _ => exact .pure trivial
  | some (.node n, rest), _ => exact .pure trivial
  | some (.atomic v, rest), hanswer =>
    have hrest := (hanswer _ rfl).2
    exact ((expectEnd_keeps hP hrest).locate hP.placeless l).bind fun _ _ => .pure trivial
  | some (.function f, rest), _ =>
    exact Logged.Ensures.locate hP.placeless l (.fail (hP.cause trivial))

theorem truth_keeps (l : Option Location) (hc : c.Keeps P) :
    (c.truth scoring l).Keeps P fun _ => True := by
  refine (decider_keeps hP l hc).bind fun answer _ => ?_
  split <;> exact .pure trivial

theorem predicateTruth_keeps (l : Option Location) (n : Nat) (hc : c.Keeps P) :
    (c.predicateTruth scoring l n).Keeps P fun _ => True := by
  refine (decider_keeps hP l hc).bind fun answer _ => ?_
  split
  · split <;> exact .pure trivial
  all_goals exact .pure trivial

end Cursor

end Consume

end TreeQuery
