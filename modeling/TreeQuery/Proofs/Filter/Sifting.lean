import TreeQuery.Proofs.Cursor.Items
import TreeQuery.Proofs.Filter.Strategy
/-!
# What predicates keep

`Sifted` says which elements of a list a judgement keeps that is told where they stand. Predicates
keep items in turn, each judging what those before it have left, numbered anew (`KeptInTurn`), or at
once, all judging an item where it stands among all items (`KeptAtOnce`). What comes out of a filter
without a failure is kept in one of these ways, and in turn if the static types of the predicates
are sound, whatever they are and whichever strategy is chosen: `Cursor.filterWith_keeps`.
-/

namespace TreeQuery

/-- The judgement keeps `kept` of elements that are numbered from `pos + 1`. -/
inductive Sifted {α : Type} (judge : Nat → α → Bool → Prop) : Nat → List α → List α → Prop
  | nil {pos : Nat} : Sifted judge pos [] []
  | keep {pos : Nat} {a : α} {as kept : List α} : judge (pos + 1) a true →
    Sifted judge (pos + 1) as kept →
      Sifted judge pos (a :: as) (a :: kept)
  | drop {pos : Nat} {a : α} {as kept : List α} : judge (pos + 1) a false →
    Sifted judge (pos + 1) as kept →
      Sifted judge pos (a :: as) kept

namespace Sifted

variable {α : Type} {judge judge' : Nat → α → Bool → Prop} {pos : Nat} {as kept : List α}

theorem sublist (h : Sifted judge pos as kept) : kept.Sublist as := by
  induction h with
  | nil => exact .slnil
  | keep _ _ ih => exact ih.cons_cons _
  | drop _ _ ih => exact ih.cons _

theorem imp {pos' : Nat} (h : Sifted judge pos as kept)
    (himp : ∀ a ∈ as, ∀ i b, judge (pos + i) a b → judge' (pos' + i) a b) :
    Sifted judge' pos' as kept := by
  induction h generalizing pos' with
  | nil => exact .nil
  | keep hjudge _ ih =>
    refine .keep (himp _ List.mem_cons_self 1 true hjudge) (ih fun a ha i b hb => ?_)
    simpa only [Nat.add_assoc] using himp a (List.mem_cons_of_mem _ ha) (1 + i) b
      (by simpa only [Nat.add_assoc] using hb)
  | drop hjudge _ ih =>
    refine .drop (himp _ List.mem_cons_self 1 false hjudge) (ih fun a ha i b hb => ?_)
    simpa only [Nat.add_assoc] using himp a (List.mem_cons_of_mem _ ha) (1 + i) b
      (by simpa only [Nat.add_assoc] using hb)

theorem eq_of_true (h : Sifted (fun _ _ b => b = true) pos as kept) : kept = as := by
  induction h with
  | nil => rfl
  | keep _ _ ih => rw [ih]
  | drop hfalse => cases hfalse

theorem of_forall {alone : α → Bool → Prop} :
    (as : List α) → {pos : Nat} → (∀ a ∈ as, ∃ b, alone a b) →
    ∃ kept, Sifted (fun _ => alone) pos as kept
  | [], _, _ => ⟨[], .nil⟩
  | a :: as, pos, h => by
    obtain ⟨kept, hkept⟩ := of_forall as (fun a ha => h a (List.mem_cons_of_mem _ ha))
    obtain ⟨_ | _, hb⟩ := h a List.mem_cons_self
    · exact ⟨kept, .drop hb hkept⟩
    · exact ⟨a :: kept, .keep hb hkept⟩

theorem mem {a : α} (h : Sifted judge pos as kept) (ha : a ∈ as)
    (hjudge : ∀ i, pos < i → i ≤ pos + as.length → ¬judge i a false) : a ∈ kept := by
  induction h with
  | nil => exact absurd ha List.not_mem_nil
  | keep _ _ ih =>
    obtain rfl | ha := List.mem_cons.mp ha
    · exact List.mem_cons_self
    · exact List.mem_cons_of_mem _
        (ih ha fun i hi hle => hjudge i (by omega) (by simp only [List.length_cons]; omega))
  | drop hfalse _ ih =>
    obtain rfl | ha := List.mem_cons.mp ha
    · exact absurd hfalse (hjudge _ (by omega) (by simp))
    · exact ih ha fun i hi hle => hjudge i (by omega) (by simp only [List.length_cons]; omega)

/-- A judgement of two parts, the second of which does not look where an element stands, can be made
part after part. -/
theorem split {alone : α → Bool → Prop}
    (h : Sifted (fun position a b => judge position a true ∧ alone a b ∨
      judge position a false ∧ b = false) pos as kept) :
    ∃ passed, Sifted judge pos as passed ∧ ∀ pos', Sifted (fun _ => alone) pos' passed kept := by
  induction h with
  | nil => exact ⟨[], .nil, fun _ => .nil⟩
  | keep hjudge _ ih =>
    obtain ⟨passed, hpassed, hkept⟩ := ih
    obtain ⟨hfirst, hrest⟩ | ⟨-, hfalse⟩ := hjudge
    · exact ⟨_, .keep hfirst hpassed, fun pos' => .keep hrest (hkept _)⟩
    · cases hfalse
  | drop hjudge _ ih =>
    obtain ⟨passed, hpassed, hkept⟩ := ih
    obtain ⟨hfirst, hrest⟩ | ⟨hfirst, -⟩ := hjudge
    · exact ⟨_, .keep hfirst hpassed, fun pos' => .drop hrest (hkept _)⟩
    · exact ⟨passed, .drop hfirst hpassed, hkept⟩

end Sifted

/-! ### Predicates -/

def Expr.Holds (call : Caller) (env : Env) (e : Expr) (b : Bool) : Prop :=
  ∃ verdict, (e.test call env).Gives verdict ∧ verdict.isSome = b

/-- The conjunction of predicates, which are asked one after the other until one is false. -/
def HoldAll (call : Caller) (env : Env) : List Expr → Bool → Prop
  | [], b => b = true
  | e :: es, b => e.Holds call env true ∧ HoldAll call env es b ∨ e.Holds call env false ∧ b = false

/-- All predicates judge an item where it stands among the items. -/
def KeptAtOnce (call : Caller) (env : Env) (predicates : List Expr) (items kept : List Item) :
    Prop :=
  Sifted (fun position item => HoldAll call (env.focusOn none env.scoring position item) predicates)
    0 items kept

/-- One predicate after the other judges the items that are left, each where it stands among
these. -/
def KeptInTurn (call : Caller) (env : Env) : List Expr → List Item → List Item → Prop
  | [], items, kept => kept = items
  | e :: es, items, kept => ∃ passed,
      Sifted (fun position item => e.Holds call
        (env.focusOn (some items.length) env.scoring position item)) 0 items passed ∧
        KeptInTurn call env es passed kept

variable {call : Caller} {env : Env}

theorem Expr.Holds.unique {e : Expr} {b b' : Bool} (h : e.Holds call env b)
    (h' : e.Holds call env b') : b = b' := by
  obtain ⟨verdict, hverdict, rfl⟩ := h
  obtain ⟨verdict', hverdict', rfl⟩ := h'
  rw [hverdict.unique hverdict']

theorem HoldAll.unique : {es : List Expr} → {b b' : Bool} → HoldAll call env es b →
    HoldAll call env es b' → b = b'
  | [], _, _, h, h' => h.trans h'.symm
  | _ :: _, _, _, .inl ⟨_, h⟩, .inl ⟨_, h'⟩ => h.unique h'
  | _ :: _, _, _, .inr ⟨_, rfl⟩, .inr ⟨_, rfl⟩ => rfl
  | _ :: _, _, _, .inl ⟨htrue, _⟩, .inr ⟨hfalse, _⟩ => absurd (htrue.unique hfalse) (by decide)
  | _ :: _, _, _, .inr ⟨hfalse, _⟩, .inl ⟨htrue, _⟩ => absurd (htrue.unique hfalse) (by decide)

theorem holdAll_append (fs : List Expr) :
    (es : List Expr) → {b : Bool} → (HoldAll call env (es ++ fs) b ↔
    HoldAll call env es true ∧ HoldAll call env fs b ∨ HoldAll call env es false ∧ b = false)
  | [], b => by simp [HoldAll]
  | e :: es, b => by
    simp only [List.cons_append, HoldAll, holdAll_append fs es]
    tauto

theorem meanTest_holds {count : Nat} :
    (es : List Expr) → {total : Number} → {mean : Option Number} →
    (meanTest call env count total es).Gives mean → HoldAll call env es mean.isSome
  | [], total, mean, h => by
    rw [meanTest, Logged.gives_pure] at h
    rw [← h]
    rfl
  | e :: es, total, mean, h => by
    simp only [meanTest, Logged.gives_bind] at h
    obtain ⟨verdict, hverdict, h⟩ := h
    cases verdict with
    | none =>
      obtain rfl := Logged.gives_pure.mp h
      exact .inr ⟨⟨none, hverdict, rfl⟩, rfl⟩
    | some score => exact .inl ⟨⟨some score, hverdict, rfl⟩, meanTest_holds es h⟩

theorem keepScored_sifted {judge : Nat → Nat → Item → Run (Option Number)} {size : Nat} :
    (items : List (Item × Number)) →
    {pos : Nat} → {kept : List (Item × Number)} → (keepScored judge size pos items).Gives kept →
    Sifted (fun position item b => ∃ verdict, (judge size position item).Gives verdict ∧
      verdict.isSome = b) pos (itemsOf items) (itemsOf kept)
  | [], pos, kept, h => by
    obtain rfl := Logged.gives_pure.mp h
    exact .nil
  | (item, total) :: rest, pos, kept, h => by
    simp only [keepScored, Logged.gives_bind] at h
    obtain ⟨verdict, hverdict, others, hothers, h⟩ := h
    have ih := keepScored_sifted rest hothers
    cases verdict with
    | none =>
      obtain rfl := Logged.gives_pure.mp h
      exact .drop ⟨none, hverdict, rfl⟩ ih
    | some score =>
      obtain rfl := Logged.gives_pure.mp h
      exact .keep ⟨some score, hverdict, rfl⟩ ih

theorem filterInTurn_kept : (es : List Expr) → {items kept : List (Item × Number)} →
    (filterInTurn call env items es).Gives kept →
    KeptInTurn call env es (itemsOf items) (itemsOf kept)
  | [], items, kept, h => by
    obtain rfl := Logged.gives_pure.mp h
    rfl
  | e :: es, items, kept, h => by
    simp only [filterInTurn, Logged.gives_bind] at h
    obtain ⟨passed, hpassed, h⟩ := h
    refine ⟨itemsOf passed, ?_, filterInTurn_kept es h⟩
    rw [List.length_map]
    exact keepScored_sifted items hpassed

/-! ### Streams -/

section Streams

variable {judge : Judgement} {scoring : Bool}

def Judgement.Decides (judge : Judgement) (scoring : Bool) (position : Nat) (item : Item)
    (b : Bool) : Prop :=
  ∃ verdict, (judge scoring position item).Gives verdict ∧ verdict.isSome = b

theorem Reply.sifted_select : (r : Reply) → {pos : Nat} → {earlier : List Trace} →
    Clean ((r.select judge pos scoring earlier).deliveries scoring) →
    Sifted (judge.Decides scoring) pos (delivered (r.deliveries scoring))
      (delivered ((r.select judge pos scoring earlier).deliveries scoring))
  | .ended .., _, _, _ => .nil
  | .yielded log (.error e) score rest, pos, earlier, h => absurd h clean_error
  | .yielded log (.ok item) score (.mk hint pull), pos, earlier, h => by
    simp only [Reply.select, Reply.deliveries, Cursor.deliveries, delivered_ok] at h ⊢
    cases hverdict : (judge scoring (pos + 1) item).outcome with
    | error e =>
      rw [hverdict] at h
      exact absurd h clean_error
    | ok verdict =>
      rw [hverdict] at h
      cases verdict with
      | none => exact .drop ⟨none, hverdict, rfl⟩ (Reply.sifted_select (pull scoring) h)
      | some s => exact .keep ⟨some s, hverdict, rfl⟩ (Reply.sifted_select (pull scoring) h)

theorem Cursor.sifted_select {c : Cursor} {pos : Nat}
    (h : Clean ((c.select judge pos).deliveries scoring)) :
    Sifted (judge.Decides scoring) pos (delivered (c.deliveries scoring))
      (delivered ((c.select judge pos).deliveries scoring)) := by
  obtain ⟨hint, pull⟩ := c
  exact Reply.sifted_select (pull scoring) h

/-- The judgement decides in the window, and nothing passes outside. -/
def Judgement.DecidesWithin (judge : Judgement) (w : Window) (scoring : Bool) (position : Nat)
    (item : Item) (b : Bool) : Prop :=
  if w.contains position then judge.Decides scoring position item b else b = false

theorem sifted_beyond {w : Window} : (items : List Item) → {pos : Nat} → w.last ≤ pos →
    Sifted (judge.DecidesWithin w scoring) pos items []
  | [], _, _ => .nil
  | item :: items, pos, h => by
    refine .drop ?_ (sifted_beyond items (by omega))
    rw [Judgement.DecidesWithin, if_neg (by simp [Window.contains]; omega)]

theorem Reply.sifted_window {w : Window} :
    (r : Reply) → {pos : Nat} → {earlier : List Trace} → pos < w.last →
    Clean ((r.window w judge pos scoring earlier).deliveries scoring) →
    Sifted (judge.DecidesWithin w scoring) pos (delivered (r.deliveries scoring))
      (delivered ((r.window w judge pos scoring earlier).deliveries scoring))
  | .ended .., _, _, _, _ => .nil
  | .yielded log (.error e) score rest, pos, earlier, hpos, h => absurd h clean_error
  | .yielded log (.ok item) score (.mk hint pull), pos, earlier, hpos, h => by
    -- the rest of the window, whether there is one or not
    have ih (earlier logged : List Trace) (hint : SizeHint)
        (h : Clean
          ((if pos + 1 < w.last then (pull scoring).window w judge (pos + 1) scoring earlier
          else .ended logged hint).deliveries scoring)) :
        Sifted (judge.DecidesWithin w scoring) (pos + 1)
          (delivered ((pull scoring).deliveries scoring))
          (delivered
            ((if pos + 1 < w.last then (pull scoring).window w judge (pos + 1) scoring earlier
            else .ended logged hint).deliveries scoring)) := by
      split at h
      · next hlt => rw [if_pos hlt]; exact Reply.sifted_window (pull scoring) hlt h
      · next hge => rw [if_neg hge]; exact sifted_beyond _ (by omega)
    simp only [Reply.deliveries, Cursor.deliveries, delivered_ok]
    by_cases hbefore : pos + 1 < w.first
    · simp only [Reply.window, if_pos hbefore] at h ⊢
      refine .drop ?_ (ih _ _ _ h)
      rw [Judgement.DecidesWithin, if_neg (by simp [Window.contains]; omega)]
    have hin : w.contains (pos + 1) = true := by simp [Window.contains]; omega
    simp only [Reply.window, if_neg hbefore] at h ⊢
    cases hverdict : (judge scoring (pos + 1) item).outcome with
    | error e =>
      rw [hverdict] at h
      exact absurd h clean_error
    | ok verdict =>
      have hdecides : judge.DecidesWithin w scoring (pos + 1) item verdict.isSome := by
        rw [Judgement.DecidesWithin, if_pos hin]
        exact ⟨verdict, hverdict, rfl⟩
      rw [hverdict] at h
      cases verdict with
      | none => exact .drop hdecides (ih _ _ _ h)
      | some s =>
        simp only [Reply.deliveries, Cursor.window, Cursor.deliveries, clean_ok,
          delivered_ok] at h ⊢
        exact .keep hdecides (ih _ _ _ h)

theorem Cursor.sifted_window {w : Window} {c : Cursor} {pos : Nat}
    (h : Clean ((c.window w judge pos).deliveries scoring)) :
    Sifted (judge.DecidesWithin w scoring) pos (delivered (c.deliveries scoring))
      (delivered ((c.window w judge pos).deliveries scoring)) := by
  obtain ⟨hint, pull⟩ := c
  simp only [Cursor.window, Cursor.deliveries] at h ⊢
  split at h
  · next hlt => rw [if_pos hlt]; exact Reply.sifted_window (pull scoring) hlt h
  · next hge => rw [if_neg hge]; exact sifted_beyond _ (Nat.le_of_not_lt hge)

end Streams

/-! ### At once and in turn -/

section Steady

variable (hc : call.IgnoresFocus)

include hc

theorem Expr.Holds.anywhere {e : Expr} (he : e.isPositional = false) {item : Item} {b : Bool}
    {size size' : Option Nat} {position position' : Nat}
    (sound : e.SoundAt call (env.focusOn size env.scoring position item))
    (h : e.Holds call (env.focusOn size env.scoring position item) b) :
    e.Holds call (env.focusOn size' env.scoring position' item) b := by
  obtain ⟨verdict, hverdict, hb⟩ := h
  exact ⟨verdict, Expr.test_placed hc he sound position' size' hverdict, hb⟩

theorem HoldAll.alone : {es : List Expr} → (∀ e ∈ es, e.isPositional = false) → {item : Item} →
    SoundOn call env es item →
    {b : Bool} → {position : Nat} → HoldAll call (env.focusOn none env.scoring position item) es b →
    HoldAll call (env.focusAlone item) es b
  | [], _, _, _, _, _, h => h
  | e :: es, hes, item, sound, b, position, h => by
    have first {b : Bool} (h : e.Holds call (env.focusOn none env.scoring position item) b) :
        e.Holds call (env.focusAlone item) b :=
      h.anywhere hc (hes e List.mem_cons_self) (sound e List.mem_cons_self _ _)
    exact h.imp
      (fun ⟨htrue, hrest⟩ =>
        ⟨first htrue, hrest.alone (fun e' he' => hes e' (List.mem_cons_of_mem _ he')) sound.tail⟩)
      fun ⟨hfalse, hb⟩ => ⟨first hfalse, hb⟩

/-- Where no place matters judging at once is judging in turn. -/
theorem keptInTurn_of_alone : (es : List Expr) → (∀ e ∈ es, e.isPositional = false) →
    {items kept : List Item} →
    (∀ item ∈ items, SoundOn call env es item) →
    Sifted (fun _ item => HoldAll call (env.focusAlone item) es) 0 items kept →
    KeptInTurn call env es items kept
  | [], _, _, _, _, h => h.eq_of_true
  | e :: es, hes, items, kept, sound, h => by
    obtain ⟨passed, hpassed, hkept⟩ := h.split
    refine ⟨passed, hpassed.imp fun item hitem i b hb => ?_, ?_⟩
    · exact hb.anywhere hc (hes e List.mem_cons_self) (sound item hitem e List.mem_cons_self _ _)
    · exact keptInTurn_of_alone es (fun e' he' => hes e' (List.mem_cons_of_mem _ he'))
        (fun item hitem => (sound item (hpassed.sublist.subset hitem)).tail) (hkept 0)

theorem KeptAtOnce.inTurn {es : List Expr} (hes : ∀ e ∈ es, e.isPositional = false)
    {items kept : List Item} (sound : ∀ item ∈ items, SoundOn call env es item)
    (h : KeptAtOnce call env es items kept) : KeptInTurn call env es items kept :=
  keptInTurn_of_alone hc es hes sound
    (h.imp fun item hitem _ _ hb => hb.alone hc hes (sound item hitem))

/-- A window in front judges by the place among all items in either way. -/
theorem KeptAtOnce.inTurn_window {w : Window} {type : StaticType} {l : Option Location}
    {es : List Expr} (hes : ∀ e ∈ es, e.isPositional = false) {items kept : List Item}
    (sound : ∀ item ∈ items, SoundOn call env es item)
    (h : KeptAtOnce call env (⟨.position w, type, l⟩ :: es) items kept) :
    KeptInTurn call env (⟨.position w, type, l⟩ :: es) items kept := by
  have hsplit : Sifted (fun position item b =>
      Expr.Holds call (env.focusOn none env.scoring position item) ⟨.position w, type, l⟩ true ∧
          HoldAll call (env.focusAlone item) es b ∨
        Expr.Holds call (env.focusOn none env.scoring position item) ⟨.position w, type, l⟩ false ∧
          b = false) 0 items kept :=
    h.imp fun item hitem _ _ hb => hb.imp_left fun ⟨htrue, hrest⟩ =>
      ⟨htrue, hrest.alone hc hes (sound item hitem)⟩
  obtain ⟨passed, hpassed, hkept⟩ := hsplit.split
  refine ⟨passed, hpassed.imp fun item _ i b hb => ?_, ?_⟩
  · simpa only [Expr.Holds, Expr.test_position] using hb
  · exact keptInTurn_of_alone hc es hes
      (fun item hitem => sound item (hpassed.sublist.subset hitem)) (hkept 0)

end Steady

/-- What predicates keep: each item is judged by its place among all items or among those that the
predicates before have left, and in the latter way if the static types of the predicates are
sound. -/
structure PredicatesKeep (call : Caller) (env : Env) (predicates : List Expr)
    (items kept : List Item) : Prop where
  either : KeptAtOnce call env predicates items kept ∨ KeptInTurn call env predicates items kept
  inTurn : (∀ item ∈ items, SoundOn call env predicates item) →
    KeptInTurn call env predicates items kept

section Strategies

variable {predicates : List Expr} {c d : Cursor}

theorem keptInTurn_of_sequentially (h : (c.filterSequentially call env predicates).Gives d) :
    KeptInTurn call env predicates (delivered (c.deliveries env.scoring))
      (delivered (d.deliveries env.scoring)) := by
  simp only [Cursor.filterSequentially, Logged.gives_bind, Logged.gives_pure] at h
  obtain ⟨items, hitems, scored, hscored, rfl⟩ := h
  rw [(Cursor.drain_delivered hitems).1, Cursor.delivered_ofScored]
  simpa [itemsOf, meanScores, Function.comp_def] using filterInTurn_kept predicates hscored

theorem Judgement.Decides.holdAll {count position : Nat} {item : Item} {b : Bool}
    (h : Judgement.Decides (fun scoring position item =>
      meanTest call (env.focusOn none scoring position item) count .zero predicates) env.scoring
        position item b) :
      HoldAll call (env.focusOn none env.scoring position item) predicates b := by
  obtain ⟨verdict, hverdict, rfl⟩ := h
  exact meanTest_holds predicates hverdict

theorem keptAtOnce_of_select {count : Nat} (h : Clean ((c.select (fun scoring position item =>
      meanTest call (env.focusOn none scoring position item) count .zero predicates)
        0).deliveries env.scoring)) :
    KeptAtOnce call env predicates (delivered (c.deliveries env.scoring))
        (delivered ((c.select (fun scoring position item =>
      meanTest call (env.focusOn none scoring position item) count .zero predicates) 0).deliveries
        env.scoring)) :=
  (Cursor.sifted_select h).imp fun _ _ _ _ hb => hb.holdAll

theorem keptAtOnce_of_window {w : Window} {type : StaticType} {l : Option Location}
    {es : List Expr} {count : Nat}
    (h : Clean ((c.window w (fun scoring position item => meanTest call (env.focusOn none scoring position item) count .zero
      (⟨.position w, type, l⟩ :: es)) 0).deliveries env.scoring)) :
    KeptAtOnce call env (⟨.position w, type, l⟩ :: es) (delivered (c.deliveries env.scoring))
      (delivered ((c.window w (fun scoring position item => meanTest call (env.focusOn none scoring position item) count .zero
        (⟨.position w, type, l⟩ :: es)) 0).deliveries env.scoring)) := by
  refine (Cursor.sifted_window h).imp fun item _ i b hb => ?_
  rw [Judgement.DecidesWithin] at hb
  split at hb
  · exact hb.holdAll
  next hout =>
    exact .inr ⟨⟨none, by rw [Expr.test_position, if_neg hout, Logged.gives_pure], rfl⟩, hb⟩

theorem KeptInTurn.sublist : {es : List Expr} → {items kept : List Item} →
    KeptInTurn call env es items kept → kept.Sublist items
  | [], _, _, h => h ▸ List.Sublist.refl _
  | _ :: _, _, _, ⟨_, hpassed, hkept⟩ => hkept.sublist.trans hpassed.sublist

theorem PredicatesKeep.sublist {items kept : List Item}
    (h : PredicatesKeep call env predicates items kept) : kept.Sublist items :=
  h.either.elim Sifted.sublist KeptInTurn.sublist

/-- A filter without a failure delivers the items that its predicates keep. -/
theorem Cursor.filterWith_keeps (hc : call.IgnoresFocus)
    (h : (c.filterWith call env predicates).Gives d) (hclean : Clean (d.deliveries env.scoring)) :
    PredicatesKeep call env predicates (delivered (c.deliveries env.scoring))
      (delivered (d.deliveries env.scoring)) := by
  by_cases hne : predicates = []
  · subst hne
    obtain rfl := Logged.gives_pure.mp h
    exact ⟨.inr rfl, fun _ => rfl⟩
  by_cases hpositional : predicates.any Expr.isPositional = true
  · cases hw : leadingWindow? predicates with
    | none =>
      rw [filterWith_eq_sequentially hpositional hw] at h
      exact ⟨.inr (keptInTurn_of_sequentially h), fun _ => keptInTurn_of_sequentially h⟩
    | some w =>
      rw [filterWith_eq_of_window hpositional hw] at h
      obtain rfl := Logged.gives_pure.mp h
      obtain ⟨type, l, es, rfl, hes⟩ := leadingWindow?_some hw
      have hkept := keptAtOnce_of_window hclean
      exact ⟨.inl hkept, fun sound => hkept.inTurn_window hc hes fun item hitem =>
        (sound item hitem).tail⟩
  · rw [Bool.not_eq_true] at hpositional
    rw [filterWith_eq_of_steady hne hpositional] at h
    obtain rfl := Logged.gives_pure.mp h
    have hkept := keptAtOnce_of_select hclean
    exact ⟨.inl hkept, hkept.inTurn hc fun e he => by
      simpa using List.any_eq_false.mp hpositional e he⟩

end Strategies

end TreeQuery
