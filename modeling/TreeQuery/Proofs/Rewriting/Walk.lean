import Mathlib.Data.List.Sort
import TreeQuery.Proofs.Eval.Order
import TreeQuery.Proofs.Truth.Steps
/-!
# What steps make of items

If nothing fails, the steps of a path are a relation between lists: `Expr.Follows` tells what one
step makes of the items before it, numbered and counted as they stand, and `Walks` what all steps
make of them, with document order in between where more than one item may come before a step.
`followSteps_walks` reads the relation off evaluation. It has one outcome (`Walks.unique`), and
where no step depends on its position, the members of the outcome are those that the steps lead to
(`Walks.mem_iff`).
-/

namespace TreeQuery

variable {call : Caller} {env : Env}

/-- Whether evaluation delivers these items, and no failure. -/
def Expr.Delivers (call : Caller) (env : Env) (e : Expr) (items : List Item) : Prop :=
  ∃ c, (e.iterate call env).Gives c ∧ Clean (c.deliveries env.scoring) ∧
    delivered (c.deliveries env.scoring) = items

/-- Whether an operand, with each of the items in focus, delivers these items one after the other.
The items are numbered from `pos + 1`. -/
def Expr.Maps (call : Caller) (env : Env) (e : Expr) (size : Option Nat) :
    Nat → List Item → List Item → Prop
  | _, [], ys => ys = []
  | pos, x :: xs, ys => ∃ block rest, e.Delivers call
    (env.focusOn size env.scoring (pos + 1) x) block ∧
      e.Maps call env size (pos + 1) xs rest ∧ ys = block ++ rest

/-- What an operand makes of items, whose number it gets to know if it asks for the position. -/
def Expr.Follows (call : Caller) (env : Env) (e : Expr) (xs ys : List Item) : Prop :=
  e.Maps call env (if e.dependsOn .position = true then some xs.length else none) 0 xs ys

/-- What steps make of items, of which there is at most one if `alone` holds. -/
def Walks (call : Caller) (env : Env) (alone : Bool) : List Expr → List Item → List Item → Prop
  | [], xs, ys => xs = ys
  | s :: ss, xs, ys => ∃ zs, s.Follows call env xs zs ∧
      if alone = true then Walks call env s.type.atMostOne ss zs ys
      else ∃ ws, documentOrder env.forest zs = .ok ws ∧ Walks call env false ss ws ys

/-! ### From evaluation -/

theorem Expr.Delivers.of_drained {e : Expr} {items : List Item}
    (h : (e.drained call env).Gives items) : e.Delivers call env items := by
  simp only [drained, Logged.gives_bind] at h
  obtain ⟨c, hc, hdrain⟩ := h
  obtain ⟨hdelivered, hclean, -⟩ := Cursor.drain_delivered hdrain
  exact ⟨c, hc, hclean, hdelivered⟩

theorem Link.deliveries_maps {e : Expr} {size : Option Nat} {link : Link}
    (hstart : link.start = fun scoring pos x => e.iterate call (env.focusOn size scoring pos x)) :
    (ds : List Delivery) → (pos : Nat) → Clean (link.deliveries env.scoring pos ds) →
      e.Maps call env size pos (delivered ds) (delivered (link.deliveries env.scoring pos ds))
  | [], _, _ => rfl
  | (.error _, _) :: _, _, h => absurd h clean_error
  | (.ok x, _) :: ds, pos, h => by
    rw [deliveries] at h ⊢
    split at h
    · exact absurd h clean_error
    · obtain ⟨hblock, hrest⟩ := (clean_append _ _).mp h
      have hdelivers : e.Delivers call (env.focusOn size env.scoring (pos + 1) x)
          (delivered (link.block env.scoring (pos + 1) x)) := by
        unfold block at hblock ⊢
        split at hblock
        · exact absurd hblock clean_error
        · next d hd =>
          rw [hstart] at hd
          exact ⟨d, hd, hblock, rfl⟩
      rw [delivered_append]
      exact ⟨_, _, hdelivers, Link.deliveries_maps hstart ds (pos + 1) hrest, rfl⟩

theorem Cursor.follow_follows {e : Expr} {nodesOnly : Bool} {c c' : Cursor}
    (h : (c.follow env e nodesOnly fun env => e.iterate call env).Gives c')
    (hclean : Clean (c'.deliveries env.scoring)) : Clean (c.deliveries env.scoring) ∧
      e.Follows call env (delivered (c.deliveries env.scoring))
        (delivered (c'.deliveries env.scoring)) := by
  simp only [follow, Logged.gives_ite, Logged.gives_bind, Logged.gives_pure] at h
  unfold Expr.Follows
  obtain ⟨hpos, items, hitems, rfl⟩ | ⟨hpos, rfl⟩ := h
  · obtain ⟨rfl, hitems, -⟩ := drain_delivered hitems
    rw [deliveries_chain] at hclean ⊢
    have hmaps : e.Maps call env _ 0 _ _ := Link.deliveries_maps rfl _ 0 hclean
    rw [delivered_ofList] at hmaps
    rw [if_pos hpos]
    exact ⟨hitems, hmaps⟩
  · rw [deliveries_chain] at hclean ⊢
    rw [if_neg hpos]
    exact ⟨Link.clean_deliveries _ 0 hclean, Link.deliveries_maps rfl _ 0 hclean⟩

theorem followSteps_walks : {steps : List Expr} → {alone : Bool} → {c c' : Cursor} →
    (followSteps call env c alone steps).Gives c' → Clean (c'.deliveries env.scoring) →
    Clean (c.deliveries env.scoring) ∧
      Walks call env alone steps (delivered (c.deliveries env.scoring))
        (delivered (c'.deliveries env.scoring))
  | [], _, c, c', h, hclean => by
    simp only [followSteps, Logged.gives_pure] at h
    subst h
    exact ⟨hclean, rfl⟩
  | s :: ss, alone, c, c', h, hclean => by
    simp only [followSteps, Logged.gives_bind, Logged.gives_ite, Logged.gives_ofOutcome] at h
    obtain ⟨next, hnext, ⟨hone, h⟩ | ⟨hmany, items, hitems, ordered, hordered, h⟩⟩ := h
    · obtain ⟨hnextClean, hwalks⟩ := followSteps_walks h hclean
      obtain ⟨hc, hfollows⟩ := Cursor.follow_follows hnext hnextClean
      refine ⟨hc, _, hfollows, ?_⟩
      rwa [if_pos hone]
    · obtain ⟨-, hwalks⟩ := followSteps_walks h hclean
      obtain ⟨rfl, hnextClean, -⟩ := Cursor.drain_delivered hitems
      obtain ⟨hc, hfollows⟩ := Cursor.follow_follows hnext hnextClean
      refine ⟨hc, _, hfollows, ?_⟩
      rw [if_neg hmany]
      rw [Cursor.delivered_ofList] at hwalks
      exact ⟨ordered, hordered, hwalks⟩

/-- What a path delivers is what its steps make of its root, or of the item in focus. -/
theorem Form.pathFrom_walks {root : Option Expr} {steps : List Expr} {τ : StaticType}
    {l : Option Location} {items : List Item}
    (h : Expr.Delivers call env ⟨.pathFrom root steps, τ, l⟩ items) : ∃ xs, (match root with
      | some root => root.Delivers call env xs
      | none => ∃ x, env.focus.item = some x ∧ xs = [x]) ∧
      Walks call env (root.all (·.type.atMostOne)) steps xs items := by
  obtain ⟨c, hc, hclean, rfl⟩ := h
  cases root with
  | some root =>
    simp only [pathFrom, Expr.iterate, iterate, Logged.gives_locate, Logged.gives_bind] at hc
    obtain ⟨start, hstart, h⟩ := hc
    obtain ⟨hstartClean, hwalks⟩ := followSteps_walks h hclean
    exact ⟨_, ⟨start, hstart, hstartClean, rfl⟩, hwalks⟩
  | none =>
    simp only [pathFrom, Expr.iterate, iterate, Logged.gives_locate, Logged.gives_bind] at hc
    obtain ⟨x, hx, h⟩ := hc
    obtain ⟨-, hwalks⟩ := followSteps_walks h hclean
    exact ⟨[x], ⟨x, Env.contextItem_gives hx, rfl⟩, by simpa [Cursor.single] using hwalks⟩

/-! ### One outcome -/

theorem Expr.Delivers.unique {e : Expr} {ys zs : List Item} (h : e.Delivers call env ys)
    (h' : e.Delivers call env zs) : ys = zs := by
  obtain ⟨c, hc, -, rfl⟩ := h
  obtain ⟨d, hd, -, rfl⟩ := h'
  rw [hc.unique hd]

theorem Expr.Maps.unique {e : Expr} {size : Option Nat} :
    {xs : List Item} → {pos : Nat} → {ys zs : List Item} →
    e.Maps call env size pos xs ys → e.Maps call env size pos xs zs → ys = zs
  | [], _, _, _, h, h' => Eq.trans h (Eq.symm h')
  | _ :: _, _, _, _, ⟨block, rest, hblock, hrest, hys⟩, ⟨block', rest', hblock', hrest', hzs⟩ => by
    rw [hys, hzs, hblock.unique hblock', Expr.Maps.unique hrest hrest']

theorem Walks.unique : {steps : List Expr} → {alone : Bool} → {xs ys zs : List Item} →
    Walks call env alone steps xs ys →
    Walks call env alone steps xs zs → ys = zs
  | [], _, _, _, _, h, h' => Eq.trans (Eq.symm h) h'
  | s :: ss, alone, _, _, _, ⟨us, hus, h⟩, ⟨us', hus', h'⟩ => by
    obtain rfl := Expr.Maps.unique hus hus'
    cases alone with
    | true => exact Walks.unique h h'
    | false =>
      obtain ⟨ws, hws, h⟩ := h
      obtain ⟨ws', hws', h'⟩ := h'
      obtain rfl := Except.ok.inj (hws.symm.trans hws')
      exact Walks.unique h h'

theorem Walks.of_nil : {steps : List Expr} → {alone : Bool} → {ys : List Item} →
    Walks call env alone steps [] ys → ys = []
  | [], _, _, h => Eq.symm h
  | s :: ss, alone, _, ⟨zs, hzs, h⟩ => by
    obtain rfl : zs = [] := hzs
    cases alone with
    | true => exact Walks.of_nil h
    | false =>
      obtain ⟨ws, hws, h⟩ := h
      obtain rfl : [] = ws := Except.ok.inj hws
      exact Walks.of_nil h

def aloneBehind (alone : Bool) (steps : List Expr) : Bool := alone && steps.all (·.type.atMostOne)

theorem walks_append {ss' : List Expr} {ys : List Item} :
    (ss : List Expr) → {alone : Bool} → {xs : List Item} →
    (Walks call env alone (ss ++ ss') xs ys ↔
      ∃ zs, Walks call env alone ss xs zs ∧ Walks call env (aloneBehind alone ss) ss' zs ys)
  | [], alone, xs => by simp [Walks, aloneBehind]
  | s :: ss, alone, xs => by
    cases alone with
    | true =>
      simp only [List.cons_append, Walks, if_true, walks_append ss, aloneBehind,
        List.all_cons, Bool.true_and]
      constructor
      · rintro ⟨us, hus, zs, hzs, h⟩
        exact ⟨zs, ⟨us, hus, hzs⟩, h⟩
      · rintro ⟨zs, ⟨us, hus, hzs⟩, h⟩
        exact ⟨us, hus, zs, hzs, h⟩
    | false =>
      simp only [List.cons_append, Walks, if_neg Bool.false_ne_true, walks_append ss,
        aloneBehind, Bool.false_and]
      constructor
      · rintro ⟨us, hus, ws, hws, zs, hzs, h⟩
        exact ⟨zs, ⟨us, hus, ws, hws, hzs⟩, h⟩
      · rintro ⟨zs, ⟨us, hus, ws, hws, hzs⟩, h⟩
        exact ⟨us, hus, ws, hws, zs, hzs, h⟩

/-! ### Members -/

section Members

variable (hc : call.IgnoresFocus)

include hc

theorem Expr.delivers_focusOn {e : Expr} (he : e.dependsOn .position = false) {size : Option Nat}
    {pos : Nat} {x : Item} {ys : List Item} :
    e.Delivers call (env.focusOn size env.scoring pos x) ys ↔
    e.Delivers call (env.focusAlone x) ys := by
  unfold Delivers
  rw [iterate_focusOn hc he]
  exact Iff.rfl

theorem Expr.follows_single {e : Expr} (he : e.dependsOn .position = false) {x : Item}
    (hx : env.focus.item = some x) {ys : List Item} :
    e.Follows call env [x] ys ↔ e.Delivers call env ys := by
  have hfocus : e.Delivers call (env.focusOn none env.scoring 1 x) ys ↔ e.Delivers call env ys := by
    unfold Delivers
    rw [show env.focusOn none env.scoring 1 x = env.withFocus ⟨some x, 1, none⟩ from rfl,
      iterate_withFocus hc e ⟨fun _ => hx, fun h => absurd h (by simp [he])⟩]
    exact Iff.rfl
  rw [Follows, he, if_neg Bool.false_ne_true]
  constructor
  · rintro ⟨block, rest, hblock, rfl, rfl⟩
    rw [List.append_nil] at hfocus ⊢
    exact hfocus.mp hblock
  · exact fun h => ⟨ys, [], hfocus.mpr h, rfl, (List.append_nil ys).symm⟩

theorem Expr.Maps.mem_iff {e : Expr} (he : e.dependsOn .position = false) {size : Option Nat}
    {y : Item} : {xs : List Item} → {pos : Nat} → {ys : List Item} →
    e.Maps call env size pos xs ys →
      (y ∈ ys ↔ ∃ x ∈ xs, e.Finds call env x y)
  | [], _, ys, h => by
    obtain rfl : ys = [] := h
    simp
  | x :: xs, _, _, ⟨block, rest, hblock, hrest, hys⟩ => by
    obtain ⟨c, hgives, -, rfl⟩ := (delivers_focusOn hc he).mp hblock
    have hfinds : e.Finds call env x y ↔ y ∈ delivered (c.deliveries env.scoring) :=
      ⟨fun ⟨d, hd, hy⟩ => hgives.unique hd ▸ hy, fun hy => ⟨c, hgives, hy⟩⟩
    rw [hys, List.mem_append, Expr.Maps.mem_iff he hrest, List.exists_mem_cons_iff, hfinds]
    exact Iff.rfl

theorem Walks.mem_iff {y : Item} :
    {steps : List Expr} → (∀ s ∈ steps, s.dependsOn .position = false) → {alone : Bool} →
    {xs ys : List Item} → Walks call env alone steps xs ys →
      (y ∈ ys ↔ ∃ x ∈ xs, Leads (Expr.Finds call env) steps x y)
  | [], _, _, xs, ys, h => by
    obtain rfl : xs = ys := h
    simp [Leads]
  | s :: ss, hsteady, alone, xs, ys, ⟨zs, hzs, h⟩ => by
    rw [List.forall_mem_cons] at hsteady
    have hmem (z : Item) : z ∈ zs ↔ ∃ x ∈ xs, s.Finds call env x z :=
      Expr.Maps.mem_iff hc hsteady.1 hzs
    have hled : y ∈ ys ↔ ∃ z ∈ zs, Leads (Expr.Finds call env) ss z y := by
      cases alone with
      | true => exact Walks.mem_iff hsteady.2 h
      | false =>
        obtain ⟨ws, hws, h⟩ := h
        simp only [Walks.mem_iff hsteady.2 h, mem_documentOrder hws]
    simp only [hled, hmem, Leads]
    constructor
    · rintro ⟨z, ⟨x, hx, hxz⟩, hzy⟩
      exact ⟨x, hx, z, hxz, hzy⟩
    · rintro ⟨x, hx, z, hxz, hzy⟩
      exact ⟨z, ⟨x, hx, hxz⟩, hzy⟩

end Members

/-! ### Sorted nodes -/

/-- Sequences of nodes in document order are the same if they have the same members. -/
theorem documentOrder_eq {forest : Forest} {items items' ordered ordered' : List Item}
    (h : documentOrder forest items = .ok ordered) (h' : documentOrder forest items' = .ok ordered')
    (hnodes : ∀ x ∈ items, ∃ n, x = .node n) (hmem : ∀ x, x ∈ items ↔ x ∈ items') :
    ordered = ordered' := by
  have hordered (x : Item) : x ∈ ordered ↔ x ∈ ordered' := by
    rw [mem_documentOrder h, mem_documentOrder h', hmem]
  have hsource : ∀ x ∈ ordered, ∃ n, x = .node n :=
    fun x hx => hnodes x ((mem_documentOrder h).mp hx)
  have hsource' : ∀ x ∈ ordered', ∃ n, x = .node n := fun x hx => hsource x ((hordered x).mpr hx)
  have hirrefl : Std.Irrefl forest.Before := ⟨fun _ => Forest.not_before_self⟩
  have hantisymm : Std.Antisymm forest.Before :=
    ⟨fun _ _ hab hba => absurd (hab.trans hba) Forest.not_before_self⟩
  rw [eq_nodes hsource, eq_nodes hsource']
  refine congrArg _
    (List.Pairwise.eq_of_mem_iff (documentOrder_pairwise h) (documentOrder_pairwise h') fun n => ?_)
  rw [mem_nodes_iff, mem_nodes_iff, hordered]

end TreeQuery
