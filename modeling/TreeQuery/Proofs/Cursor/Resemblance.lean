import TreeQuery.Proofs.Eval.Location
import TreeQuery.Proofs.Rewriting.Truth
/-!
# What resembling cursors come to

Cursors that resemble each other deliver the same save for what failures say, and so does all that
is made of them: counts, truths, chains, checks and filters. `Logged.Alike` says this of
computations: both fail, in whatever way, or both answer, and alike.
-/

namespace TreeQuery

/-! ### Computations -/

namespace Logged

variable {ω α β γ δ : Type}

/-- Both computations fail, or both answer, with answers in the relation `R`. -/
def Alike (R : α → β → Prop) (x : Logged ω α) (y : Logged ω β) : Prop :=
  x.Matches (fun _ _ => True) R y

namespace Alike

variable {R : α → β → Prop} {S : γ → δ → Prop} {x : Logged ω α} {y : Logged ω β}

theorem exists_gives (h : x.Alike R y) {a : α} (hx : x.Gives a) : ∃ b, y.Gives b ∧ R a b := by
  cases h with
  | fails hf _ _ => cases hf.symm.trans hx
  | @gives a' b hx' hy h => exact ⟨b, hy, hx'.unique hx ▸ h⟩

theorem bind {f : α → Logged ω γ} {g : β → Logged ω δ} (h : x.Alike R y)
    (hfg : ∀ a b, R a b → (f a).Alike S (g b)) : (x >>= f).Alike S (y >>= g) :=
  Matches.bind h hfg

theorem pure {a : α} {b : β} (h : R a b) :
    Alike R (Pure.pure a : Logged ω α) (Pure.pure b : Logged ω β) := Matches.pure h

theorem map {f : α → γ} {g : β → δ} (h : x.Alike R y) (hfg : ∀ a b, R a b → S (f a) (g b)) :
    (f <$> x).Alike S (g <$> y) := by
  rw [← bind_pure_comp, ← bind_pure_comp]
  exact h.bind fun a b hab => .pure (hfg a b hab)

theorem locate (h : x.Alike R y) (l l' : Option Location) : (x.locate l).Alike R (y.locate l') := by
  cases h with
  | @fails f g hx hy _ =>
    have hx' : (x.locate l).Fails (f.locate l) := by
      simp [Fails, Logged.locate, show x.outcome = _ from hx]
    have hy' : (y.locate l').Fails (g.locate l') := by
      simp [Fails, Logged.locate, show y.outcome = _ from hy]
    exact Matches.fails hx' hy' trivial
  | gives hx hy h => exact Matches.gives (gives_locate.mpr hx) (gives_locate.mpr hy) h

theorem refl {R : α → α → Prop} (hR : ∀ a, R a a) (x : Logged ω α) : x.Alike R x := by
  obtain ⟨a, ha⟩ | ⟨f, hf⟩ := x.gives_or_fails
  · exact Matches.gives ha ha (hR a)
  · exact Matches.fails hf hf trivial

theorem symm (h : x.Alike R y) : y.Alike (fun b a => R a b) x := by
  cases h with
  | fails hx hy _ => exact Matches.fails hy hx trivial
  | gives hx hy h => exact Matches.gives hy hx h

theorem trans {T : β → γ → Prop} {z : Logged ω γ} (h : x.Alike R y) (h' : y.Alike T z) :
    x.Alike (fun a c => ∃ b, R a b ∧ T b c) z := by
  cases h with
  | fails hx hy _ =>
    cases h' with
    | fails _ hz _ => exact Matches.fails hx hz trivial
    | gives hy' _ _ => cases hy.symm.trans hy'
  | @gives a b hx hy h =>
    cases h' with
    | fails hy' _ _ => cases hy.symm.trans hy'
    | gives hy' hz h' => exact Matches.gives hx hz ⟨b, h, hy.unique hy' ▸ h'⟩

theorem imp {T : α → β → Prop} (h : x.Alike R y) (hRT : ∀ a b, R a b → T a b) : x.Alike T y := by
  cases h with
  | fails hx hy h => exact Matches.fails hx hy h
  | gives hx hy h => exact Matches.gives hx hy (hRT _ _ h)

theorem of_gives_iff {x y : Logged ω α} (h : ∀ a, x.Gives a ↔ y.Gives a) : x.Alike Eq y := by
  obtain ⟨a, ha⟩ | ⟨f, hf⟩ := x.gives_or_fails
  · exact Matches.gives ha ((h a).mp ha) rfl
  · obtain ⟨a, ha⟩ | ⟨g, hg⟩ := y.gives_or_fails
    · cases hf.symm.trans ((h a).mpr ha)
    · exact Matches.fails hf hg trivial

theorem bind_eq {x y : Logged ω α} {f : α → Logged ω γ} {g : α → Logged ω δ} (h : x.Alike Eq y)
    (hfg : ∀ a, (f a).Alike S (g a)) : (x >>= f).Alike S (y >>= g) :=
  h.bind (by
    rintro a _ rfl
    exact hfg a)

end Alike

end Logged

open Logged (Alike)

/-! ### The truth of predicates -/

/-- How deliveries decide whether a predicate holds at a position: as they decide a truth, but a
single number is compared with the position. -/
inductive DecidesAt (position : Nat) : List Delivery → Bool → Prop
  | nothing : DecidesAt position [] false
  | number {v : Atomic} {x : Number} {score : Option Number} (h : v.number? = some x) :
      DecidesAt position [(.ok (.atomic v), score)] (x.same (Format.double.ofInt position))
  | atomic {v : Atomic} {score : Option Number} (h : v.number? = none) :
      DecidesAt position [(.ok (.atomic v), score)] v.isTruthy
  | node {n : NodeId} {score : Option Number} {ds : List Delivery} : DecidesAt position
    ((.ok (.node n), score) :: ds) true

theorem DecidesAt.unique {position : Nat} {ds : List Delivery} {b b' : Bool}
    (h : DecidesAt position ds b) (h' : DecidesAt position ds b') : b = b' := by
  cases h with
  | nothing | node => cases h'; rfl
  | number hv | atomic hv =>
    cases h' with
    | number hv' | atomic hv' => simp_all

theorem DecidesAt.of_items {position : Nat} {ds ds' : List Delivery} {b : Bool}
    (h : DecidesAt position ds b)
    (heq : (ds.map fun d => d.1.toOption) = ds'.map fun d => d.1.toOption) :
    DecidesAt position ds' b := by
  cases h with
  | nothing =>
    obtain rfl := List.map_eq_nil_iff.mp heq.symm
    exact .nothing
  | number hv =>
    obtain ⟨⟨_ | y, score'⟩, rfl, hd⟩ := List.map_eq_singleton_iff.mp heq.symm
    · cases hd
    · cases hd
      exact .number hv
  | atomic hv =>
    obtain ⟨⟨_ | y, score'⟩, rfl, hd⟩ := List.map_eq_singleton_iff.mp heq.symm
    · cases hd
    · cases hd
      exact .atomic hv
  | node =>
    obtain ⟨⟨_ | y, score'⟩, ds', rfl, hd, -⟩ := List.map_eq_cons_iff.mp heq.symm
    · cases hd
    · cases hd
      exact .node

theorem Cursor.predicateTruth_iff {c : Cursor} {scoring : Bool} {l : Option Location}
    {position : Nat} {b : Bool} : (c.predicateTruth scoring l position).Gives b ↔
    DecidesAt position (c.deliveries scoring) b := by
  constructor
  · intro h
    simp only [predicateTruth, Logged.gives_bind] at h
    obtain ⟨verdict, hverdict, h⟩ := h
    obtain ⟨rfl, hy⟩ | ⟨v, score, rfl, hy⟩ | ⟨n, score, rest, rfl, hd⟩ := decider_cases hverdict
    · rw [show c.deliveries scoring = [] from hy, ← Logged.gives_pure.mp h]
      exact .nothing
    · rw [show c.deliveries scoring = [(.ok (.atomic v), score)] from hy]
      dsimp only at h
      split at h
      · next x hv =>
        rw [← Logged.gives_pure.mp h]
        exact .number hv
      · next hv =>
        rw [← Logged.gives_pure.mp h]
        exact .atomic hv
    · rw [hd, ← Logged.gives_pure.mp h]
      exact .node
  · intro h
    generalize hds : c.deliveries scoring = ds at h
    have decides (v : Atomic) (score : Option Number)
      (hds : c.deliveries scoring = [(.ok (.atomic v), score)]) :
        (c.decider scoring l).Gives (some (.atomic v)) := by
      obtain ⟨rest, hfirst, hrest⟩ := exists_first? hds
      simp only [decider, Logged.gives_bind]
      refine ⟨_, hfirst, ?_⟩
      simp only [Logged.gives_bind, Logged.gives_locate, expectEnd_iff, Logged.gives_pure, and_true]
      exact ⟨(), hrest⟩
    simp only [predicateTruth, Logged.gives_bind]
    cases h with
    | nothing =>
      simp only [decider, Logged.gives_bind]
      exact ⟨none, ⟨none, first?_none_iff.mpr hds, Logged.gives_pure.mpr rfl⟩,
        Logged.gives_pure.mpr rfl⟩
    | @number v x score hv =>
      refine ⟨_, decides v score hds, ?_⟩
      simp only [hv]
      exact Logged.gives_pure.mpr rfl
    | @atomic v score hv =>
      refine ⟨_, decides v score hds, ?_⟩
      simp only [hv]
      exact Logged.gives_pure.mpr rfl
    | @node n =>
      obtain ⟨rest, hfirst, -⟩ := exists_first? hds
      simp only [decider, Logged.gives_bind]
      exact ⟨some (.node n), ⟨_, hfirst, Logged.gives_pure.mpr rfl⟩, Logged.gives_pure.mpr rfl⟩

/-! ### Consuming -/

/-- Folds of deliveries that differ in what failures say fail both or give the same. -/
theorem foldDeliveries_forget {β : Type} (step : β → Item → Option Number → Except Failure β) :
    (ds : List Delivery) →
    {ds' : List Delivery} → ds.map Delivery.forget = ds'.map Delivery.forget → (b : β) →
    (foldDeliveries step b ds).toOption = (foldDeliveries step b ds').toOption
  | [], ds', h, b => by
    obtain rfl := List.map_eq_nil_iff.mp h.symm
    rfl
  | (.error e, score) :: ds, ds', h, b => by
    obtain ⟨⟨_ | x, score'⟩, ds', rfl, hd, -⟩ := List.map_eq_cons_iff.mp h.symm
    · rfl
    · cases hd
  | (.ok x, score) :: ds, ds', h, b => by
    obtain ⟨d, ds', rfl, hd, hds⟩ := List.map_eq_cons_iff.mp h.symm
    obtain rfl := Delivery.of_forget hd
    simp only [foldDeliveries]
    cases step b x score with
    | error e => rfl
    | ok b => exact foldDeliveries_forget step ds hds.symm b

namespace Cursor.Resembles

variable {c c' : Cursor} {scoring : Bool}

theorem symm (h : c.Resembles c') : c'.Resembles c := fun scoring => (h scoring).symm

theorem trans {d : Cursor} (h : c.Resembles c') (h' : c'.Resembles d) : c.Resembles d :=
  fun scoring => (h scoring).trans (h' scoring)

theorem fold {β : Type} (h : c.Resembles c') (step : β → Item → Option Number → Run β) (b : β) :
    (c.fold scoring step b).Alike Eq (c'.fold scoring step b) :=
  .of_gives_iff fun a => by
    rw [Logged.gives_iff_toOption, Logged.gives_iff_toOption, outcome_fold, outcome_fold,
      foldDeliveries_forget _ _ (h scoring)]

theorem drain (h : c.Resembles c') : (c.drain scoring).Alike Eq (c'.drain scoring) :=
  (h.fold _ _).bind_eq fun _ => .refl (fun _ => rfl) _

theorem drainScored (h : c.Resembles c') :
    (c.drainScored scoring).Alike Eq (c'.drainScored scoring) :=
  (h.fold _ _).bind_eq fun _ => .refl (fun _ => rfl) _

theorem count (h : c.Resembles c') : (c.count scoring).Alike Eq (c'.count scoring) := h.fold _ _

theorem decides (h : c.Resembles c') {b : Bool} :
    Decides (c.deliveries scoring) b ↔ Decides (c'.deliveries scoring) b :=
  ⟨fun hb => hb.of_forget (h scoring), fun hb => hb.of_forget (h scoring).symm⟩

theorem truth (h : c.Resembles c') (l l' : Option Location) :
    (c.truth scoring l).Alike Eq (c'.truth scoring l') :=
  .of_gives_iff fun b => by rw [truth_iff, truth_iff, h.decides]

theorem toOption (h : c.Resembles c') (scoring : Bool) :
    ((c.deliveries scoring).map fun d => d.1.toOption) =
    ((c'.deliveries scoring).map fun d => d.1.toOption) := by
  have hitems := congrArg (List.map Prod.fst) (h scoring)
  rwa [List.map_map, List.map_map] at hitems

theorem predicateTruth (h : c.Resembles c') (l l' : Option Location) (position : Nat) :
    (c.predicateTruth scoring l position).Alike Eq (c'.predicateTruth scoring l' position) :=
  .of_gives_iff fun b => by
    rw [predicateTruth_iff, predicateTruth_iff]
    exact ⟨fun hb => hb.of_items (h.toOption scoring),
      fun hb => hb.of_items (h.toOption scoring).symm⟩

end Cursor.Resembles

theorem Env.search_alike {env : Env} {query query' : Run (List Item)} {input input' : Run Cursor}
    (hquery : query.Alike Eq query') (hinput : input.Alike Cursor.Resembles input') :
    (env.search query input).Alike Eq (env.search query' input') := by
  refine .bind_eq (.refl (fun _ => rfl) _) fun matcher => hquery.bind_eq fun items => ?_
  exact .bind_eq (.refl (fun _ => rfl) _) fun words => hinput.bind fun c c' hc => hc.fold _ _

/-! ### Chains -/

/-- Whether links admit the same items and open cursors for them that resemble each other. -/
structure Link.Resembles (link link' : Link) : Prop where
  accept (item : Item) : (link.accept item).toOption = (link'.accept item).toOption
  start (scoring : Bool) (pos : Nat) (item : Item) :
    (link.start scoring pos item).Alike Cursor.Resembles (link'.start scoring pos item)

theorem Link.Resembles.block {link link' : Link} (h : link.Resembles link') (scoring : Bool)
    (pos : Nat) (item : Item) :
    (link.block scoring pos item).map Delivery.forget =
    (link'.block scoring pos item).map Delivery.forget := by
  rw [Link.block, Link.block]
  cases h.start scoring pos item with
  | @fails f g hx hy _ =>
    rw [show _ = _ from hx, show _ = _ from hy]
    rfl
  | @gives c c' hx hy hc =>
    rw [show _ = _ from hx, show _ = _ from hy]
    exact hc scoring

/-- A chain is told by the items before it; their scores do not matter. -/
theorem Link.Resembles.deliveries {link link' : Link} (h : link.Resembles link') (scoring : Bool) :
    (ds : List Delivery) →
    {ds' : List Delivery} → (ds.map fun d => d.1.toOption) =
    (ds'.map fun d => d.1.toOption) → (pos : Nat) →
    (link.deliveries scoring pos ds).map Delivery.forget =
    (link'.deliveries scoring pos ds').map Delivery.forget
  | [], ds', hds, pos => by
    obtain rfl := List.map_eq_nil_iff.mp hds.symm
    rfl
  | (.error e, score) :: ds, ds', hds, pos => by
    obtain ⟨⟨e' | x, score'⟩, ds', rfl, hd, hds⟩ := List.map_eq_cons_iff.mp hds.symm
    · simp only [Link.deliveries, List.map_cons, h.deliveries scoring ds hds.symm pos]
      rfl
    · cases hd
  | (.ok x, score) :: ds, ds', hds, pos => by
    obtain ⟨⟨e' | y, score'⟩, ds', rfl, hd, htail⟩ := List.map_eq_cons_iff.mp hds.symm
    · cases hd
    · obtain rfl : y = x := Option.some.inj hd
      have haccept := h.accept y
      simp only [Link.deliveries]
      cases hx : link.accept y with
      | error f =>
        cases hy : link'.accept y with
        | error g =>
          simp only [List.map_cons, h.deliveries scoring ds htail.symm pos]
          rfl
        | ok _ => simp [hx, hy, Except.toOption] at haccept
      | ok _ =>
        cases hy : link'.accept y with
        | error g => simp [hx, hy, Except.toOption] at haccept
        | ok _ => simp only [List.map_append, h.block, h.deliveries scoring ds htail.symm (pos + 1)]

section Follow

variable {env : Env} {operand operand' : Expr} {nodesOnly : Bool}
    {iterate iterate' : Env → Run Cursor}
  (hstart : ∀ size scoring pos item, (iterate (env.focusOn size scoring pos item)).Alike
    Cursor.Resembles (iterate' (env.focusOn size scoring pos item)))

include hstart

theorem link_resembles (size : Option Nat) : Link.Resembles
    ⟨if nodesOnly then admitNode operand.location else fun _ => .ok (),
      fun scoring position item => iterate (env.focusOn size scoring position item)⟩
    ⟨if nodesOnly then admitNode operand'.location else fun _ => .ok (),
      fun scoring position item => iterate' (env.focusOn size scoring position item)⟩ where
  accept item := by
    cases nodesOnly with
    | false => rfl
    | true =>
      simp only [if_true, admitNode]
      split <;> rfl
  start scoring pos item := hstart size scoring pos item

/-- Where an operand does not ask for its position, only the items before it matter and not their
scores. -/
theorem follow_resembles_of_items (hsteady : operand.dependsOn .position = false)
    (hsteady' : operand'.dependsOn .position = false) {c c' : Cursor} (hitems : ∀ scoring,
      ((c.deliveries scoring).map fun d => d.1.toOption) =
      ((c'.deliveries scoring).map fun d => d.1.toOption)) :
      (c.follow env operand nodesOnly iterate).Alike Cursor.Resembles
        (c'.follow env operand' nodesOnly iterate') := by
  simp only [Cursor.follow, hsteady, hsteady', Bool.false_eq_true, if_false]
  refine .pure fun scoring => ?_
  rw [Cursor.deliveries_chain, Cursor.deliveries_chain]
  exact (link_resembles hstart none).deliveries scoring _ (hitems scoring) 0

theorem Cursor.Resembles.follow
    (hposition : operand.dependsOn .position = operand'.dependsOn .position) {c c' : Cursor}
    (h : c.Resembles c') :
    (c.follow env operand nodesOnly iterate).Alike Cursor.Resembles
      (c'.follow env operand' nodesOnly iterate') := by
  cases hsteady : operand.dependsOn .position with
  | false => exact follow_resembles_of_items hstart hsteady (hposition ▸ hsteady) h.toOption
  | true =>
    simp only [Cursor.follow, ← hposition, hsteady, if_true]
    refine h.drain.bind_eq fun items => .pure fun scoring => ?_
    rw [Cursor.deliveries_chain, Cursor.deliveries_chain]
    exact (link_resembles hstart _).deliveries scoring _ rfl 0

end Follow

/-! ### Replies -/

/-- Replies after which the same is delivered, save for what failures say. -/
inductive Reply.Resembles (scoring : Bool) : Reply → Reply → Prop
  | ended {log log' : List Trace} {hint hint' : SizeHint} :
    Reply.Resembles scoring (.ended log hint) (.ended log' hint')
  | failed {log log' : List Trace} {e e' : Failure} {score : Option Number} {rest rest' : Cursor}
      (h : Reply.Resembles scoring (rest.pull scoring) (rest'.pull scoring)) :
      Reply.Resembles scoring (.yielded log (.error e) score rest)
        (.yielded log' (.error e') score rest')
  | item {log log' : List Trace} {x : Item} {score : Option Number} {rest rest' : Cursor}
      (h : Reply.Resembles scoring (rest.pull scoring) (rest'.pull scoring)) :
      Reply.Resembles scoring (.yielded log (.ok x) score rest) (.yielded log' (.ok x) score rest')

namespace Reply

variable {scoring : Bool}

theorem Resembles.deliveries {r r' : Reply} (h : r.Resembles scoring r') :
    (r.deliveries scoring).map Delivery.forget = (r'.deliveries scoring).map Delivery.forget := by
  induction h with
  | ended => rfl
  | failed _ ih =>
    rw [← Cursor.deliveries_eq, ← Cursor.deliveries_eq] at ih
    simp only [Reply.deliveries, List.map_cons, ih]
    rfl
  | item _ ih =>
    rw [← Cursor.deliveries_eq, ← Cursor.deliveries_eq] at ih
    simp only [Reply.deliveries, List.map_cons, ih]

theorem Resembles.of_deliveries : (r : Reply) → {r' : Reply} →
    (r.deliveries scoring).map Delivery.forget = (r'.deliveries scoring).map Delivery.forget →
    r.Resembles scoring r'
  | .ended .., .ended .., _ => .ended
  | .ended .., .yielded .., h | .yielded _ _ _ (.mk _ _), .ended .., h => by
    simp [Reply.deliveries] at h
  | .yielded log outcome score (.mk hint pull), .yielded log' outcome' score' rest', h => by
    simp only [Reply.deliveries, List.map_cons, List.cons.injEq, Delivery.forget,
      Prod.mk.injEq] at h
    obtain ⟨⟨houtcome, rfl⟩, hrest⟩ := h
    have hrest : Reply.Resembles scoring (pull scoring) (rest'.pull scoring) :=
      .of_deliveries (pull scoring) (by rwa [Cursor.deliveries_eq rest'] at hrest)
    cases outcome with
    | error e =>
      cases outcome' with
      | error e' => exact .failed hrest
      | ok y => cases houtcome
    | ok x =>
      cases outcome' with
      | error e' => cases houtcome
      | ok y =>
        obtain rfl : x = y := Option.some.inj houtcome
        exact .item hrest

end Reply

theorem Cursor.Resembles.pull {c c' : Cursor} (h : c.Resembles c') (scoring : Bool) :
    (c.pull scoring).Resembles scoring (c'.pull scoring) :=
  .of_deliveries _ (by rw [← Cursor.deliveries_eq, ← Cursor.deliveries_eq, h scoring])

theorem Cursor.Resembles.first? {c c' : Cursor} (h : c.Resembles c') (scoring : Bool) :
    (c.first? scoring).Alike (fun a b => a.isSome = b.isSome) (c'.first? scoring) := by
  have hpull := h.pull scoring
  rw [Cursor.first?, Cursor.first?]
  generalize c.pull scoring = r at hpull
  generalize c'.pull scoring = r' at hpull
  cases hpull with
  | ended => exact .gives rfl rfl rfl
  | failed => exact .fails rfl rfl trivial
  | item => exact .gives rfl rfl rfl

/-! ### Checks -/

theorem Reply.Resembles.check {scoring : Bool} {t : TypeCheck} {forest : Forest} {r r' : Reply}
    (h : r.Resembles scoring r') :
    (count : Nat) → (r.check t forest count).Resembles scoring (r'.check t forest count) := by
  induction h with
  | ended =>
    intro count
    simp only [Reply.check]
    cases t.finish count with
    | error e => exact .failed .ended
    | ok _ => exact .ended
  | failed => exact fun count => .failed .ended
  | @item log log' x score rest rest' h ih =>
    intro count
    simp only [Reply.check]
    cases (t.next forest count x).outcome with
    | error e => exact .failed .ended
    | ok y =>
      obtain ⟨hint, pull⟩ := rest
      obtain ⟨hint', pull'⟩ := rest'
      exact .item (ih (count + 1))

theorem Cursor.Resembles.check {c c' : Cursor} (h : c.Resembles c') (t : TypeCheck)
    (forest : Forest) (count : Nat) :
    (c.check t forest count).Resembles (c'.check t forest count) := by
  intro scoring
  obtain ⟨hint, pull⟩ := c
  obtain ⟨hint', pull'⟩ := c'
  exact ((h.pull scoring).check count).deliveries

/-! ### Filters -/

section Filters

variable {judge judge' : Judgement} {scoring : Bool}
  (hjudge : ∀ scoring position item, (judge scoring position item).Alike Eq
    (judge' scoring position item))

include hjudge

theorem Reply.Resembles.select {r r' : Reply} (h : r.Resembles scoring r') :
    (pos : Nat) → (earlier earlier' : List Trace) →
    (r.select judge pos scoring earlier).Resembles scoring
      (r'.select judge' pos scoring earlier') := by
  induction h with
  | ended => exact fun _ _ _ => .ended
  | @failed log log' e e' score rest rest' h ih =>
    obtain ⟨hint, pull⟩ := rest
    obtain ⟨hint', pull'⟩ := rest'
    exact fun pos _ _ => .failed (ih pos [] [])
  | @item log log' x score rest rest' h ih =>
    intro pos earlier earlier'
    obtain ⟨hint, pull⟩ := rest
    obtain ⟨hint', pull'⟩ := rest'
    simp only [Reply.select]
    cases hjudge scoring (pos + 1) x with
    | @fails f g hx hy _ =>
      rw [show _ = _ from hx, show _ = _ from hy]
      exact .failed (ih (pos + 1) [] [])
    | @gives verdict _ hx hy heq =>
      subst heq
      rw [show _ = _ from hx, show _ = _ from hy]
      cases verdict with
      | none => exact ih (pos + 1) _ _
      | some s => exact .item (ih (pos + 1) [] [])

theorem Cursor.Resembles.select {c c' : Cursor} (h : c.Resembles c') (pos : Nat) :
    (c.select judge pos).Resembles (c'.select judge' pos) := by
  intro scoring
  obtain ⟨hint, pull⟩ := c
  obtain ⟨hint', pull'⟩ := c'
  exact ((h.pull scoring).select hjudge pos [] []).deliveries

theorem Reply.Resembles.window {w : Window} {r r' : Reply} (h : r.Resembles scoring r') :
    (pos : Nat) →
    (earlier earlier' : List Trace) →
    (r.window w judge pos scoring earlier).Resembles scoring
      (r'.window w judge' pos scoring earlier') := by
  induction h with
  | ended => exact fun _ _ _ => .ended
  | @failed log log' e e' score rest rest' h ih =>
    obtain ⟨hint, pull⟩ := rest
    obtain ⟨hint', pull'⟩ := rest'
    intro pos _ _
    refine .failed ?_
    simp only [Cursor.window, Cursor.pull]
    split
    · exact ih pos [] []
    · exact .ended
  | @item log log' x score rest rest' h ih =>
    intro pos earlier earlier'
    obtain ⟨hint, pull⟩ := rest
    obtain ⟨hint', pull'⟩ := rest'
    -- the rest of the window, whether there is one or not
    have hrest (earlier earlier' logged logged' : List Trace) (hint hint' : SizeHint) :
      Reply.Resembles scoring
        (if pos + 1 < w.last then (pull scoring).window w judge (pos + 1) scoring earlier else
          .ended logged hint)
        (if pos + 1 < w.last then (pull' scoring).window w judge' (pos + 1) scoring earlier' else
          .ended logged' hint') := by
      split
      · exact ih (pos + 1) _ _
      · exact .ended
    have hverdict : Alike Eq (if pos + 1 < w.first then return none else judge scoring (pos + 1) x)
        (if pos + 1 < w.first then return none else judge' scoring (pos + 1) x) := by
      split
      · exact .pure rfl
      · exact hjudge scoring (pos + 1) x
    simp only [Reply.window]
    cases hverdict with
    | @fails f g hx hy _ =>
      rw [show _ = _ from hx, show _ = _ from hy]
      exact .failed (hrest _ _ _ _ _ _)
    | @gives verdict _ hx hy heq =>
      subst heq
      rw [show _ = _ from hx, show _ = _ from hy]
      cases verdict with
      | none => exact hrest _ _ _ _ _ _
      | some s => exact .item (hrest _ _ _ _ _ _)

theorem Cursor.Resembles.window {w : Window} {c c' : Cursor} (h : c.Resembles c') (pos : Nat) :
    (c.window w judge pos).Resembles (c'.window w judge' pos) := by
  intro scoring
  obtain ⟨hint, pull⟩ := c
  obtain ⟨hint', pull'⟩ := c'
  simp only [Cursor.window, Cursor.deliveries]
  split
  · exact ((h.pull scoring).window hjudge pos [] []).deliveries
  · rfl

end Filters

theorem keepScored_alike {judge judge' : Nat → Nat → Item → Run (Option Number)} {size : Nat}
    (hjudge : ∀ position item, (judge size position item).Alike Eq (judge' size position item)) :
    (items : List (Item × Number)) → (pos : Nat) →
    (keepScored judge size pos items).Alike Eq (keepScored judge' size pos items)
  | [], _ => .refl (fun _ => rfl) _
  | (item, _) :: rest, pos =>
    (hjudge (pos + 1) item).bind_eq fun _ =>
      (keepScored_alike hjudge rest (pos + 1)).bind_eq fun _ => .refl (fun _ => rfl) _

theorem Cursor.Resembles.filterBy {env : Env} {predicates predicates' : List Expr}
    {mean mean' : Env → Run (Option Number)}
    {inTurn inTurn' : List (Item × Number) → Run (List (Item × Number))}
    (hlength : predicates.length = predicates'.length)
    (hpositional : predicates.any Expr.isPositional = predicates'.any Expr.isPositional)
    (hwindow : leadingWindow? predicates = leadingWindow? predicates')
    (hmean : ∀ env, (mean env).Alike Eq (mean' env))
    (hinTurn : ∀ items, (inTurn items).Alike Eq (inTurn' items)) {c c' : Cursor}
    (h : c.Resembles c') :
    (c.filterBy env predicates mean inTurn).Alike Cursor.Resembles
      (c'.filterBy env predicates' mean' inTurn') := by
  have hempty : predicates.isEmpty = predicates'.isEmpty := by
    cases predicates <;> cases predicates' <;> simp at hlength ⊢
  have hjudge : ∀ scoring position item, (mean (env.focusOn none scoring position item)).Alike Eq
      (mean' (env.focusOn none scoring position item)) := fun _ _ _ => hmean _
  simp only [Cursor.filterBy, ← hempty, ← hpositional, ← hwindow, ← hlength]
  split
  · exact .pure h
  split
  · exact .pure (h.select hjudge 0)
  split
  · exact .pure (h.window hjudge 0)
  · exact h.drain.bind_eq fun items => (hinTurn _).bind_eq fun kept => .pure fun _ => rfl

end TreeQuery
