import TreeQuery.Proofs.Tree.Axis
import TreeQuery.Proofs.Tree.DocumentOrder
import TreeQuery.Proofs.Typing.Soundness
/-!
# Results in document order

The nodes of a path come in document order, each once, if the path sorts after its last step or if
its last step leads from one node to nodes in that order. It sorts unless the static types before
the last step say that there is at most one item. Steps along an axis lead to nodes in order, and so
do filters, conditionals, checks and paths of what does (`Expr.inOrder`); `Query.path_before` is
about all paths that the evaluation of a query gets to, and `Query.path_repeats` is a path with a
map for its last step.
-/

namespace TreeQuery

variable {forest : Forest}

/-! ### Cursors in document order -/

namespace Cursor

/-- The nodes among the items come in document order, each once. -/
def Ordered (forest : Forest) (c : Cursor) : Prop :=
  ∀ scoring, ((delivered (c.deliveries scoring)).filterMap Item.node?).Pairwise forest.Before

def Lone (c : Cursor) : Prop := ∀ scoring, (delivered (c.deliveries scoring)).length ≤ 1

variable {c c' : Cursor}

theorem Lone.ordered (h : c.Lone) : c.Ordered forest := by
  intro scoring
  have hle : ((delivered (c.deliveries scoring)).filterMap Item.node?).length ≤ 1 :=
    Nat.le_trans (List.length_filterMap_le _ _) (h scoring)
  rcases hnodes : (delivered (c.deliveries scoring)).filterMap Item.node? with _ |
    ⟨n, _ | ⟨m, rest⟩⟩
  · exact .nil
  · exact List.pairwise_singleton _ n
  · rw [hnodes] at hle
    simp at hle

theorem Lone.counted (h : c.Lone) : c.Counted .zeroOrOne none := by
  intro scoring
  refine ⟨fun m hm => ?_, by simp, fun _ => Nat.zero_le _, by simp⟩
  rw [← Option.some.inj hm]
  exact h scoring

theorem Counted.lone {o : Occurrence} {size : Option Nat} (h : c.Counted o size)
    (ho : o.atMostOne = true) : c.Lone := by
  intro scoring
  have hmost := (h scoring).atMost
  unfold Occurrence.atMostOne at ho
  split at ho
  · next high hhigh => exact Nat.le_trans (hmost high hhigh) (of_decide_eq_true ho)
  · cases ho

theorem lone_single (item : Item) : (single item).Lone := by
  intro scoring
  rw [single, delivered_ofList]
  exact Nat.le_refl 1

theorem ordered_ofList {items : List Item}
    (h : (items.filterMap Item.node?).Pairwise forest.Before) : (ofList items).Ordered forest := by
  intro scoring
  rwa [delivered_ofList]

theorem Ordered.drain {scoring : Bool} {items : List Item} (h : c.Ordered forest)
    (hitems : (c.drain scoring).Gives items) :
    (items.filterMap Item.node?).Pairwise forest.Before := by
  obtain ⟨rfl, -, -⟩ := drain_delivered hitems
  exact h scoring

theorem Ordered.filterBy {call : Caller} {env : Env} {predicates : List Expr} (h : c.Ordered forest)
    (hc : (c.filterBy env predicates (fun env => meanTest call env predicates.length .zero predicates)
      (fun items => filterInTurn call env items predicates)).Gives c') : c'.Ordered forest := by
  intro scoring
  obtain ⟨scoring', hsublist, -⟩ := filterBy_counts hc scoring
  exact (h scoring').sublist (hsublist.filterMap Item.node?)

theorem follow_ordered {env : Env} {operand : Expr} {nodesOnly : Bool} {iterate : Env → Run Cursor}
    {K : Knowledge} (hlone : c.Lone) (hc : c.Supplies env.forest K)
    (h : (c.follow env operand nodesOnly iterate).Gives c')
    (hoperand : ∀ size scoring pos item, K.Holds env.forest item ∧ item.Good →
      ∀ d, (iterate (env.focusOn size scoring pos item)).Gives d → d.Ordered env.forest) :
    c'.Ordered env.forest := by
  obtain ⟨d, link, rfl, hstart, hd, hcount⟩ := follow_gives h
  intro scoring
  rw [deliveries_chain]
  obtain ⟨blocks, hout, hfrom, hlength, -⟩ :=
    link.deliveries_blocks scoring (d.deliveries scoring) 0
  have hd' : d.Lone := (hcount .zeroOrOne none hlone.counted).lone rfl
  rw [hout]
  rcases blocks with _ | ⟨block, _ | ⟨other, rest⟩⟩
  · exact .nil
  · obtain ⟨pos, item, hitem, hblock⟩ := hfrom block List.mem_cons_self
    obtain ⟨size, hstart⟩ := hstart scoring pos item
    have hblock := hoperand size scoring pos item (hd K hc scoring item hitem) block
      (hstart ▸ hblock) scoring
    simpa using hblock
  · have hle := Nat.le_trans hlength (hd' scoring)
    simp at hle

end Cursor

theorem Item.promote_node (item : Item) {t : ItemType} {n : NodeId} :
    ¬(item.promote forest t).Gives (some (.node n)) := by
  intro h
  have hinstance := (Item.promote_gives h).1
  cases t with
  | atomic | functionOf => cases hinstance
  | _ => cases item <;> simp [Item.promote] at h

theorem conformItem_node {target : SeqType} {promote : Bool} {l : Option Location} {item : Item}
    {n : NodeId} (h : (conformItem forest target promote l item).Gives (.node n)) :
    item = .node n := by
  unfold conformItem at h
  split at h
  · exact Logged.gives_pure.mp h
  simp only [Logged.gives_ite, Logged.gives_bind, Logged.gives_pure] at h
  obtain ⟨-, promoted, hpromoted, h⟩ | ⟨-, promoted, rfl, h⟩ := h
  · cases promoted with
    | none => simp at h
    | some item' =>
      obtain rfl := Logged.gives_pure.mp h
      exact absurd hpromoted item.promote_node
  · simp at h

theorem Reply.nodes_check {t : TypeCheck} {scoring : Bool} : (r : Reply) → (count : Nat) →
    ((delivered ((r.check t forest count).deliveries scoring)).filterMap Item.node?).Sublist
      ((delivered (r.deliveries scoring)).filterMap Item.node?)
  | .ended log hint, count => by
    simp only [Reply.check]
    cases t.finish count <;> exact List.Sublist.refl _
  | .yielded log (.error e) score rest, count => List.nil_sublist _
  | .yielded log (.ok item) score (.mk hint pull), count => by
    simp only [Reply.check]
    cases hnext : (t.next forest count item).outcome with
    | error e => exact List.nil_sublist _
    | ok item' =>
      have ih :
          ((delivered (((pull scoring).check t forest (count + 1)).deliveries scoring)).filterMap
          Item.node?).Sublist _ :=
        (pull scoring).nodes_check (count + 1)
      simp only [Reply.deliveries, Cursor.check, Cursor.deliveries, delivered_ok]
      cases item' with
      | node n =>
        obtain rfl := conformItem_node (TypeCheck.next_gives hnext).1
        exact ih.cons_cons n
      | atomic _ | function _ =>
        exact ih.trans ((List.sublist_cons_self item _).filterMap Item.node?)

theorem Cursor.Ordered.check {c : Cursor} {t : TypeCheck} (h : c.Ordered forest) :
    (c.check t forest 0).Ordered forest := by
  intro scoring
  obtain ⟨hint, pull⟩ := c
  exact (h scoring).sublist ((pull scoring).nodes_check 0)

/-! ### Expressions whose nodes are in document order -/

mutual

/-- Whether the nodes of an expression come in document order, each once, whatever item is in
focus. -/
def Expr.inOrder : Expr → Bool
  | ⟨form, τ, _⟩ => τ.atMostOne || form.inOrder

def Form.inOrder : Form → Bool
  | .literal _ | .contextItem | .step .. => true
  | .path root steps => (!steps.isEmpty || root.inOrder) && stepsInOrder root.type.atMostOne steps
  | .relativePath steps => stepsInOrder true steps
  | .filter root _ => root.inOrder
  | .conditional _ yes no => yes.inOrder && no.inOrder
  | .check operand _ _ => operand.inOrder
  | _ => false

/-- Whether steps end in document order, from at most one item if `lone`: after the last one the
nodes are sorted, unless there is at most one item before it. -/
def stepsInOrder (lone : Bool) : List Expr → Bool
  | [] => true
  | step :: steps =>
    if steps.isEmpty then !lone || step.inOrder else
      stepsInOrder (lone && step.type.atMostOne) steps

end

section Evaluation

variable {call : Caller} {Γ : List Variable}

theorem Form.step_ordered {env : Env} (hforest : env.forest.WellFormed) {axis : Axis}
    {test : NodeTest} {predicates : List Expr} {l : Option Location} {c : Cursor}
    (h : ((Form.step axis test predicates).iterate call env l).Gives c) : c.Ordered env.forest := by
  simp only [Form.iterate, Logged.gives_bind] at h
  obtain ⟨item, -, h⟩ := h
  cases item with
  | atomic _ | function _ => simp at h
  | node n =>
    simp only [Logged.gives_bind, Logged.gives_ite, Logged.gives_pure] at h
    obtain ⟨kept, hkept, h⟩ := h
    let nodes := (env.forest.axisNodes n axis).filter (test.passes env.forest)
    have hnodes : nodes.Pairwise fun a b => if axis.isReverse then env.forest.Before b a else
        env.forest.Before a b :=
      (Forest.axisNodes_pairwise hforest n axis).sublist List.filter_sublist
    have hkept (scoring : Bool) :
        ((delivered (kept.deliveries scoring)).filterMap Item.node?).Sublist nodes := by
      obtain ⟨scoring', hsublist, -⟩ := Cursor.filterBy_counts hkept scoring
      have hsublist := hsublist.filterMap Item.node?
      rw [Cursor.delivered_ofList, List.filterMap_map] at hsublist
      simpa [Item.node?, Function.comp_def] using hsublist
    obtain ⟨hreverse, scored, hscored, rfl⟩ | ⟨hforward, rfl⟩ := h
    · intro scoring
      simp only [hreverse, if_true] at hnodes
      have hkept := hkept env.scoring
      rw [(Cursor.drainScored_delivered hscored).1] at hkept
      have hback := List.pairwise_reverse.mpr (hnodes.sublist hkept)
      rw [Cursor.delivered_ofScored, List.map_map, List.map_reverse]
      simpa [List.filterMap_reverse, Function.comp_def] using hback
    · intro scoring
      simp only [hforward] at hnodes
      exact hnodes.sublist (hkept scoring)

mutual

theorem Expr.iterate_ordered (hcall : call.Sound) :
    {e : Expr} → {K : Knowledge} → {env : Env} → env.Fits Γ K →
    env.forest.WellFormed → e.Annotated Γ K → e.inOrder = true → {c : Cursor} →
    (e.iterate call env).Gives c →
    c.Ordered env.forest
  | ⟨form, τ, l⟩, K, env, henv, hforest, he, horder, c, h => by
    rw [Expr.inOrder, Bool.or_eq_true] at horder
    rcases horder with hτ | horder
    · exact ((Expr.iterate_fits hcall henv he h τ he.infers).counted.lone hτ).ordered
    · simp only [Expr.iterate, Logged.gives_locate, Expr.Annotated] at h he
      exact Form.iterate_ordered hcall henv hforest he.2 horder h

theorem Form.iterate_ordered (hcall : call.Sound) :
    {form : Form} → {K : Knowledge} → {env : Env} → env.Fits Γ K →
    env.forest.WellFormed → form.Annotated Γ K → form.inOrder = true →
    {l : Option Location} → {c : Cursor} →
    (form.iterate call env l).Gives c → c.Ordered env.forest
  | .literal values, K, env, henv, hforest, he, horder, l, c, h => by
    simp only [Form.iterate, Logged.gives_pure] at h
    subst h
    refine Cursor.ordered_ofList ?_
    simp [List.filterMap_map, Function.comp_def, Item.node?]
  | .contextItem, K, env, henv, hforest, he, horder, l, c, h => by
    simp only [Form.iterate, Logged.gives_map] at h
    obtain ⟨item, -, rfl⟩ := h
    exact (Cursor.lone_single item).ordered
  | .step .., K, env, henv, hforest, he, horder, l, c, h => Form.step_ordered hforest h
  | .path root steps, K, env, henv, hforest, he, horder, l, c, h => by
    simp only [Form.iterate, Logged.gives_bind, Form.Annotated] at h he
    simp only [Form.inOrder, Bool.and_eq_true, Bool.or_eq_true] at horder
    obtain ⟨start, hstart, h⟩ := h
    have hfits := Expr.iterate_fits hcall henv he.1 hstart
    refine followSteps_ordered hcall henv hforest he.2 (he.1.supplies hfits) ?_ ?_ horder.2 h
    · exact fun hroot => (hfits _ he.1.infers).counted.lone hroot
    · rintro rfl
      exact Expr.iterate_ordered hcall henv hforest he.1 (by simpa using horder.1) hstart
  | .relativePath steps, K, env, henv, hforest, he, horder, l, c, h => by
    simp only [Form.iterate, Logged.gives_bind, Form.Annotated, Form.inOrder] at h he horder
    obtain ⟨item, hitem, h⟩ := h
    have hitem := henv.focus item (Env.contextItem_gives hitem)
    exact followSteps_ordered hcall henv hforest he (Cursor.supplies_ofList (by simpa using hitem))
      (fun _ => Cursor.lone_single item) (fun _ => (Cursor.lone_single item).ordered) horder h
  | .filter root predicates, K, env, henv, hforest, he, horder, l, c, h => by
    simp only [Form.iterate, Logged.gives_bind, Form.Annotated, Form.inOrder] at h he horder
    obtain ⟨start, hstart, h⟩ := h
    exact (Expr.iterate_ordered hcall henv hforest he.1 horder hstart).filterBy h
  | .conditional condition yes no, K, env, henv, hforest, he, horder, l, c, h => by
    simp only [Form.iterate, Logged.gives_bind, Logged.gives_ite, Form.Annotated] at h he
    simp only [Form.inOrder, Bool.and_eq_true] at horder
    obtain ⟨b, -, ⟨-, h⟩ | ⟨-, h⟩⟩ := h
    · exact Expr.iterate_ordered hcall henv hforest he.2.1 horder.1 h
    · exact Expr.iterate_ordered hcall henv hforest he.2.2 horder.2 h
  | .check operand target promote, K, env, henv, hforest, he, horder, l, c, h => by
    simp only [Form.iterate, Logged.gives_bind, Logged.gives_pure, Form.Annotated,
      Form.inOrder] at h he horder
    obtain ⟨source, hsource, rfl⟩ := h
    exact (Expr.iterate_ordered hcall henv hforest he horder hsource).check
  | .function _, K, env, henv, hforest, he, horder, l, c, h | .position _, K, env, henv, hforest,
    he, horder, l, c, h
  | .conjunction _, K, env, henv, hforest, he, horder, l, c, h | .disjunction _, K, env, henv,
    hforest, he, horder, l, c, h
  | .comparison .., K, env, henv, hforest, he, horder, l, c, h | .call .., K, env, henv, hforest,
    he, horder, l, c, h
  | .map _, K, env, henv, hforest, he, horder, l, c, h | .containsText .., K, env, henv, hforest,
    he, horder, l, c, h
  | .reference _, K, env, henv, hforest, he, horder, l, c, h | .apply .., K, env, henv, hforest,
    he, horder, l, c, h
  | .failure _, K, env, henv, hforest, he, horder, l, c, h => by simp [Form.inOrder] at horder

theorem followSteps_ordered (hcall : call.Sound) :
    {steps : List Expr} → {K L : Knowledge} → {env : Env} → env.Fits Γ L →
    env.forest.WellFormed → AnnotatedChain Γ K steps → {c : Cursor} →
    c.Supplies env.forest K → {lone : Bool} →
    (lone = true → c.Lone) → (steps = [] → c.Ordered env.forest) →
    stepsInOrder lone steps = true → {c' : Cursor} →
    (followSteps call env c lone steps).Gives c' → c'.Ordered env.forest
  | [], K, L, env, henv, hforest, he, c, hc, lone, hlone, hempty, horder, c', h => by
    simp only [followSteps, Logged.gives_pure] at h
    exact h ▸ hempty rfl
  | step :: steps, K, L, env, henv, hforest, he, c, hc, lone, hlone, hempty, horder, c', h => by
    simp only [followSteps, Logged.gives_bind, Logged.gives_ite, Logged.gives_ofOutcome] at h
    rw [AnnotatedChain] at he
    rw [stepsInOrder] at horder
    obtain ⟨next, hnext, h⟩ := h
    have hstep {size : Option Nat} {scoring : Bool} {pos : Nat} {item : Item}
      (hitem : K.Holds env.forest item ∧ item.Good)
        {d : Cursor} (hd : (step.iterate call (env.focusOn size scoring pos item)).Gives d) :=
      Expr.iterate_fits hcall (henv.focusOn hitem) he.1 hd
    have hsupplies : next.Supplies env.forest (step.Offers K) := Cursor.follow_supplies hc hnext
      fun size scoring pos item hitem d hd => he.1.supplies (hstep hitem hd)
    obtain ⟨hlone', h⟩ | ⟨hmany, items, hitems, ordered, hordered, h⟩ := h
    · -- one item before the step: the step alone accounts for the order
      have hc' := hlone hlone'
      refine followSteps_ordered hcall henv hforest he.2 hsupplies ?_ ?_ ?_ h
      · intro hτ
        have hcounted :=
            Cursor.follow_counted hc hnext hc'.counted fun size scoring pos item hitem d hd =>
          (hstep hitem hd _ he.1.infers).counted.anySize
        refine hcounted.lone ?_
        revert hτ
        unfold StaticType.atMostOne
        cases step.type.occurrence <;> decide
      · rintro rfl
        refine Cursor.follow_ordered hc' hc hnext fun size scoring pos item hitem d hd => ?_
        have horder : step.inOrder = true := by simpa [hlone'] using horder
        exact Expr.iterate_ordered hcall (henv.focusOn hitem) hforest he.1 horder hd
      · by_cases hsteps : steps = []
        · subst hsteps
          rfl
        · simpa [hsteps, hlone'] using horder
    · -- several items: the nodes are sorted, whatever the step makes of their order
      have hsorted : (Cursor.ofList ordered).Ordered env.forest :=
        Cursor.ordered_ofList (documentOrder_pairwise hordered)
      refine followSteps_ordered hcall henv hforest he.2 (.order hitems hordered hsupplies)
        (by simp) (fun _ => hsorted) ?_ h
      by_cases hsteps : steps = []
      · subst hsteps
        rfl
      · simpa [hsteps, hmany] using horder

end

end Evaluation

/-! ### Paths in queries -/

def Form.pathFrom : Option Expr → List Expr → Form
  | some root, steps => .path root steps
  | none, steps => .relativePath steps

/-- Whether the static types of a root, if there is one, and of steps tell that they lead to at most
one item. -/
def leadToOne (root : Option Expr) (steps : List Expr) : Bool :=
  root.all (·.type.atMostOne) && steps.all (·.type.atMostOne)

theorem stepsInOrder_append (last : Expr) : (init : List Expr) → (lone : Bool) →
    stepsInOrder lone (init ++ [last]) = (!(lone && init.all (·.type.atMostOne)) || last.inOrder)
  | [], lone => by simp [stepsInOrder]
  | step :: init, lone => by
    rw [List.cons_append, stepsInOrder, if_neg (by simp), stepsInOrder_append last init,
      List.all_cons, Bool.and_assoc]

theorem Form.inOrder_pathFrom {root : Option Expr} {init : List Expr} {last : Expr} :
    (Form.pathFrom root (init ++ [last])).inOrder = (!leadToOne root init || last.inOrder) := by
  cases root with
  | none => rw [pathFrom, inOrder, stepsInOrder_append, leadToOne, Option.all_none]
  | some root =>
    rw [pathFrom, inOrder, stepsInOrder_append, leadToOne, Option.all_some]
    simp

/-- Wherever evaluation gets to a path, its nodes come in document order, each once, if they do for
the last step alone or if more than one item may come before it. -/
theorem Query.path_before {s : StaticContext} {e : Expr} {q : Query} {c : Context} (he : e.Plain)
    (hq : compile s e = .ok q) (hitem : ∀ item, c.item = some item →
      (∀ f, item ≠ .function f) ∧ ∀ t, s.item = some t → item.isInstance c.forest t = true)
    (hglobals : ∀ name value, c.globals.lookup name = some value →
      ∀ item ∈ value, ∀ f, item ≠ .function f) (hforest : c.forest.WellFormed) {p : Point}
    (hp : (q.start c).Reaches p) {root : Option Expr} {init : List Expr} {last : Expr}
    (hpath : p.expr.form = .pathFrom root (init ++ [last]))
    (hlast : leadToOne root init = true → last.inOrder = true) {nodes : List NodeId}
    (hnodes : p.EndsWith (nodes.map .node)) : nodes.Pairwise c.forest.Before := by
  obtain ⟨Γ, K, henv, hann⟩ := hp.typed (start_typed he hq hitem hglobals)
  obtain ⟨d, env, form, τ, l⟩ := p
  have hsame : env.forest = c.forest := hp.forest_eq
  obtain rfl : form = _ := hpath
  have horder : (⟨.pathFrom root (init ++ [last]), τ, l⟩ : Expr).inOrder = true := by
    rw [Expr.inOrder, Form.inOrder_pathFrom]
    cases hone : leadToOne root init with
    | false => simp
    | true => simp [hlast hone]
  -- a path has no value of its own: whole or piece by piece, its value is what the cursor delivers
  have hcursor :
    ∃ cursor scoring, (Expr.iterate (callWithin d) env
    ⟨.pathFrom root (init ++ [last]), τ, l⟩).Gives cursor ∧
      (cursor.drain scoring).Gives (nodes.map .node) := by
    rcases hnodes with h | ⟨cursor, scoring, hcursor, hdrain⟩
    · obtain ⟨operand, target, promote, _, _, _, heq, -⟩ | ⟨cursor, hcursor, hdrain⟩ :=
        Expr.value_gives h
      · cases root <;> cases heq
      · exact ⟨cursor, env.scoring, hcursor, hdrain⟩
    · exact ⟨cursor, scoring, hcursor, hdrain⟩
  obtain ⟨cursor, scoring, hcursor, hdrain⟩ := hcursor
  have hordered :=
    (Expr.iterate_ordered (callWithin_sound d) henv (hsame ▸ hforest) hann horder hcursor).drain
    hdrain
  rw [List.filterMap_map] at hordered
  rw [← hsame]
  simpa [Function.comp_def, Item.node?] using hordered

theorem gives_nodes {x : Run (List Item)} {nodes : List NodeId}
    (h : x.outcome.toOption.map (List.map Item.node?) = some (nodes.map some)) :
    x.Gives (nodes.map .node) := by
  obtain ⟨items, hitems, hnodes⟩ := Option.map_eq_some_iff.mp h
  have hsome : nodes = items.filterMap Item.node? := by
    have := congrArg (List.filterMap id) hnodes
    simpa [List.filterMap_map, Function.comp_def] using this.symm
  have hlength : (items.filterMap Item.node?).length = items.length := by
    rw [← hsome]
    simpa using (congrArg List.length hnodes).symm
  rw [hsome, ← eq_map_node hlength]
  exact Logged.gives_iff_toOption.mpr hitems

/-- The elements before the last child of an element are found backwards, and come in document
order. -/
theorem Query.path_before_siblings :
    let element (children : List NodeId) : Node := { kind := .element, name := none, children }
    let forest := (((((Forest.empty false).push? (element [])).bind (·.push? (element []))).bind
      (·.push? (element []))).bind (·.push? (element [0, 1, 2]))).getD (.empty false)
    let item : Expr := ⟨.contextItem, .of .any .one, none⟩
    let sibling : Expr :=
      ⟨.step .precedingSibling ⟨some .element, none⟩ [], .of (.kind .element) .zeroOrMore, none⟩
    let path : Expr := ⟨.path item [sibling], .of (.kind .element) .zeroOrMore, none⟩
    let c : Context := { forest, item := some (.node 2) }
    compile {} path = .ok ⟨path, []⟩ ∧ (Query.start ⟨path, []⟩ c).EndsWith ([0, 1].map .node) ∧
      c.forest.WellFormed ∧
      [0, 1].Pairwise c.forest.Before := by
  intro element forest item sibling path c
  have plain : path.Plain := ⟨trivial, trivial, trivial⟩
  have compiled : compile {} path = .ok ⟨path, []⟩ := rfl
  have ended : (Query.start ⟨path, []⟩ c).EndsWith ([0, 1].map .node) :=
    .inl (gives_nodes (by decide +kernel))
  have wellFormed : c.forest.WellFormed := by decide +kernel
  have focus : ∀ item, c.item = some item → (∀ f, item ≠ .function f) ∧
      ∀ t, StaticContext.item {} = some t → item.isInstance c.forest t = true := by
    intro item h
    obtain rfl := Option.some.inj h
    exact ⟨nofun, fun t h => Option.some.inj h ▸ rfl⟩
  have steps : path.form = .pathFrom (some item) ([] ++ [sibling]) := rfl
  exact ⟨compiled, ended, wellFormed,
    path_before plain compiled focus (fun _ _ h => by cases h) wellFormed .refl steps
    (fun _ => rfl) ended⟩

/-- A map for the last step leads back to the element once for each of its children. -/
theorem Query.path_repeats :
    let element (children : List NodeId) : Node := { kind := .element, name := none, children }
    let forest := ((((Forest.empty false).push? (element [])).bind (·.push? (element []))).bind
      (·.push? (element [0, 1]))).getD (.empty false)
    let child : Expr :=
      ⟨.step .child ⟨some .element, none⟩ [], .of (.kind .element) .zeroOrMore, none⟩
    let parent : Expr := ⟨.step .parent ⟨none, none⟩ [], .of .node .zeroOrOne, none⟩
    let map : Expr := ⟨.map [child, parent], .of .node .zeroOrMore, none⟩
    let path : Expr := ⟨.relativePath [map], .of .node .zeroOrMore, none⟩
    let c : Context := { forest, item := some (.node 2) }
    compile {} path = .ok ⟨path, []⟩ ∧ (Query.start ⟨path, []⟩ c).EndsWith ([2, 2].map .node) ∧
      c.forest.WellFormed ∧
      ¬[2, 2].Pairwise c.forest.Before := by
  intro element forest child parent map path c
  have ended : (Query.start ⟨path, []⟩ c).EndsWith ([2, 2].map .node) :=
    .inl (gives_nodes (by decide +kernel))
  refine ⟨rfl, ended, by decide +kernel, fun h => ?_⟩
  exact Forest.not_before_self (List.rel_of_pairwise_cons h (List.mem_singleton.mpr rfl))

end TreeQuery
