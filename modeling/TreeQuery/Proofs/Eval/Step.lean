import TreeQuery.Proofs.Eval.Order
import TreeQuery.Proofs.Filter.Sifting
import TreeQuery.Proofs.Tree.Inverse
import TreeQuery.Proofs.Typing.Environment
/-!
# Steps along axes

A step takes the nodes of an axis that pass its test, in the order of the axis, and returns those
that its predicates keep in document order: on a reverse axis the predicates see the nodes from the
start outwards, and what they keep is turned around. `Forest.axis_steps` puts this together with the
order of axes and with the laws of those that undo each other.
-/

namespace TreeQuery

variable {call : Caller} {env : Env}

def Forest.candidates (f : Forest) (n : NodeId) (axis : Axis) (test : NodeTest) : List NodeId :=
  (f.axisNodes n axis).filter (test.passes f)

/-- The value of a step: what the predicates keep of the candidates, turned around on a reverse
axis. -/
theorem Expr.step_keeps (hcall : call.IgnoresFocus) {axis : Axis} {test : NodeTest}
    {predicates : List Expr} {type : StaticType} {l : Option Location} {items : List Item}
    (h : (Expr.value call env ⟨.step axis test predicates, type, l⟩).Gives items) :
    ∃ (n : NodeId) (kept : List NodeId), env.focus.item = some (.node n) ∧
    kept.Sublist (env.forest.candidates n axis test) ∧
      PredicatesKeep call env predicates ((env.forest.candidates n axis test).map .node)
        (kept.map .node) ∧
      items = (if axis.isReverse then kept.reverse else kept).map .node := by
  simp only [Expr.value, Form.iterate, Logged.gives_bind, Logged.gives_locate] at h
  obtain ⟨c, ⟨item, hitem, hc⟩, hitems⟩ := h
  cases item with
  | atomic _ | function _ => simp at hc
  | node n =>
    simp only [Logged.gives_bind, Logged.gives_ite, Logged.gives_pure] at hc
    obtain ⟨d, hd, hc⟩ := hc
    have hkept (hclean : Clean (d.deliveries env.scoring)) :=
      Cursor.filterWith_keeps hcall hd hclean
    rw [Cursor.delivered_ofList] at hkept
    have hnodes (hclean : Clean (d.deliveries env.scoring)) :=
      List.sublist_map_iff.mp (hkept hclean).sublist
    obtain ⟨hreverse, scored, hscored, rfl⟩ | ⟨hforward, rfl⟩ := hc
    · obtain ⟨hdelivered, hclean⟩ := Cursor.drainScored_delivered hscored
      obtain ⟨kept, hsublist, hnodes⟩ := hnodes hclean
      refine ⟨n, kept, Env.contextItem_gives hitem, hsublist, hnodes ▸ hkept hclean, ?_⟩
      rw [if_pos hreverse, List.map_reverse, ← hnodes, hdelivered,
        ← (Cursor.drain_delivered hitems).1, Cursor.delivered_ofScored]
      simp [Function.comp_def]
    · obtain ⟨rfl, hclean, -⟩ := Cursor.drain_delivered hitems
      obtain ⟨kept, hsublist, hnodes⟩ := hnodes hclean
      exact ⟨n, kept, Env.contextItem_gives hitem, hsublist, hnodes ▸ hkept hclean,
        by rw [if_neg hforward, hnodes]⟩

/-- Axes go along document order or, if they are reverse axes, against it. Among children and roots
the downward axes and those of siblings have an inverse each. A step without an error returns in
document order what its predicates keep of the candidates, which they see in the order of the
axis. -/
theorem Forest.axis_steps (f : Forest) (hf : f.WellFormed) :
    (∀ n axis, (f.axisNodes n axis).Pairwise fun a b => if axis.isReverse then f.Before b a
      else f.Before a b) ∧
      (∀ m n, f.IsChildOrRoot m → f.IsChildOrRoot n →
        (m ∈ f.axisNodes n .child ↔ n ∈ f.axisNodes m .parent) ∧
          (m ∈ f.axisNodes n .descendant ↔ n ∈ f.axisNodes m .ancestor) ∧
          (m ∈ f.axisNodes n .descendantOrSelf ↔ n ∈ f.axisNodes m .ancestorOrSelf) ∧
          (m ∈ f.axisNodes n .followingSibling ↔ n ∈ f.axisNodes m .precedingSibling)) ∧
      ∀ (depth : Nat) (env : Env) (axis : Axis) (test : NodeTest) (predicates : List Expr)
        (type : StaticType) (l : Option Location) (items : List Item), env.forest = f →
        (Expr.value (callWithin depth) env ⟨.step axis test predicates, type, l⟩).Gives items →
        ∃ (n : NodeId) (kept : List NodeId), env.focus.item = some (.node n) ∧
          PredicatesKeep (callWithin depth) env predicates ((f.candidates n axis test).map .node)
            (kept.map .node) ∧
          items = (if axis.isReverse then kept.reverse else kept).map .node ∧
          (if axis.isReverse then kept.reverse else kept).Pairwise f.Before := by
  refine ⟨f.axisNodes_pairwise hf, fun m n hm _ => hf.mem_axisNodes_iff hm, ?_⟩
  rintro depth env axis test predicates type l items rfl h
  obtain ⟨n, kept, hfocus, hsublist, hkept, hitems⟩ :=
    Expr.step_keeps (callWithin_ignoresFocus depth) h
  have horder : kept.Pairwise fun a b => if axis.isReverse then env.forest.Before b a else
      env.forest.Before a b :=
    (Forest.axisNodes_pairwise hf n axis).sublist (hsublist.trans List.filter_sublist)
  refine ⟨n, kept, hfocus, hkept, hitems, ?_⟩
  cases hreverse : axis.isReverse with
  | true => simpa [hreverse, List.pairwise_reverse] using horder
  | false => simpa [hreverse] using horder

/-- The two nearest elements before the last child of an element are returned in document order. -/
theorem Forest.axis_steps_nearest :
    let element (children : List NodeId) : Node := { kind := .element, name := none, children }
    let forest := ((((((Forest.empty false).push? (element [])).bind (·.push? (element []))).bind
      (·.push? (element []))).bind (·.push? (element []))).bind (·.push?
        (element [0, 1, 2, 3]))).getD (.empty false)
    let env : Env := .ofContext { forest, item := some (.node 3) }
    let nearest : Expr := .of (.position ⟨1, 2, by decide, by decide, by decide⟩)
    let step : Expr := ⟨.step .precedingSibling ⟨none, none⟩ [nearest], .of .node .zeroOrMore, none⟩
    forest.WellFormed ∧ (step.value (callWithin 0) env).Gives ([1, 2].map .node) ∧
      PredicatesKeep (callWithin 0) env [nearest] ([2, 1, 0].map .node) ([2, 1].map .node) := by
  intro element forest env nearest step
  have wellFormed : forest.WellFormed := by decide +kernel
  have value : (step.value (callWithin 0) env).Gives ([1, 2].map .node) :=
    gives_nodes (by decide +kernel)
  obtain ⟨n, kept, hfocus, hkept, hitems, -⟩ :=
    (forest.axis_steps wellFormed).2.2 0 env .precedingSibling
      ⟨none, none⟩ [nearest] _ none _ rfl value
  obtain rfl : 3 = n := Item.node.inj (Option.some.inj hfocus)
  have candidates : forest.candidates 3 .precedingSibling ⟨none, none⟩ =
    [2, 1, 0] := by decide +kernel
  have turned : [1, 2] = kept.reverse :=
    List.map_injective_iff.mpr (fun _ _ => Item.node.inj) hitems
  obtain rfl : kept = [2, 1] := by simpa using (congrArg List.reverse turned).symm
  exact ⟨wellFormed, value, candidates ▸ hkept⟩

end TreeQuery
